import Emu68.Branch.Tests
import Emu68.Supervisor.Code

/-!
The code that writes the whole status register changes A7 for the stack pointer of the new mode, and
brings the old A7 to the bank of its own mode. The code of ORI has lines of its own for it, which
exchange the wrong banks.
-/

set_option autoImplicit false
set_option relaxedAutoImplicit false

namespace Emu68.Supervisor

open A64 (Reg Cpu Cond Nzcv ccEQ ccNE ccGT movReg bfxil)
open Branch (regPC flushPC)
open Lib (runForward runForward_append runForward_cons runForward_piece runForward_skip
  runForward_straight)

variable {m m' m'' : Machine} {r r' changed orig cc : Reg} {x : BitVec 32}
  {old new : StatusRegister} {a : Allocation}

/-! ### The machine -/

theorem Machine.get_put (m : Machine) (h : r ≠ 31) (x : BitVec 32) : (m.put r x).cpu.get r = x :=
  m.cpu.get_put h x

theorem Machine.get_put_of_ne (m : Machine) (h : r' ≠ r) (x : BitVec 32) :
    (m.put r x).cpu.get r' = m.cpu.get r' :=
  m.cpu.get_put_of_ne h x

theorem get_flags (s : Cpu) (f : Nzcv) (r : Reg) : ({ s with flags := f } : Cpu).get r = s.get r :=
  rfl

theorem put_zero (s : Cpu) (x : BitVec 32) : s.put 31 x = s := if_pos rfl

/-! ### The lines in common -/

variable {w : ℕ}

/-- The lowest two bits are tested for being different. -/
theorem exchange_iff (h : 2 ≤ w) (x : BitVec w) :
    (x &&& 3#w ≠ 0 ∧ x &&& 3#w < 3) ↔ x.getLsbD 0 ≠ x.getLsbD 1 := by
  have hpow : 4 ≤ 2 ^ w := Nat.pow_le_pow_right (n := 2) (by decide) h
  have hthree : (3#w).toNat = 3 := Nat.mod_eq_of_lt (by omega)
  have hand : (x &&& 3#w).toNat = x.toNat % 4 := by
    rw [BitVec.toNat_and, hthree]
    exact Nat.and_two_pow_sub_one_eq_mod x.toNat 2
  have hzero : x &&& 3#w = 0 ↔ x.toNat % 4 = 0 := by
    rw [← BitVec.toNat_inj, hand, BitVec.ofNat_eq_ofNat, BitVec.toNat_ofNat, Nat.zero_mod]
  have hlt : x &&& 3#w < 3 ↔ x.toNat % 4 < 3 := by
    rw [BitVec.lt_def, hand]
    exact iff_of_eq (congrArg (x.toNat % 4 < ·) hthree)
  rw [ne_eq, hzero, hlt, BitVec.getLsbD, BitVec.getLsbD, Nat.testBit_succ, Nat.testBit_zero,
    Nat.testBit_zero, ne_eq, decide_eq_decide]
  omega

theorem exchangeCV_eq (h : 2 ≤ w) (x : BitVec w) : exchangeCV x = swapCV x := by
  refine BitVec.eq_of_getLsbD_eq fun i hi ↦ ?_
  rw [getLsbD_swapCV x hi, exchangeCV]
  split
  · next hne =>
    rw [exchange_iff h] at hne
    rw [BitVec.getLsbD_xor, getLsbD_three]
    rcases i with _ | _ | i
    · rw [decide_eq_true hi, decide_eq_true (show 0 < 2 by decide), Bool.and_self, Bool.xor_true]
      exact (Bool.eq_not.mpr hne.symm).symm
    · rw [decide_eq_true hi, decide_eq_true (show 0 + 1 < 2 by decide), Bool.and_self, Bool.xor_true]
      exact (Bool.eq_not.mpr hne).symm
    · simp
  · next heq =>
    rw [exchange_iff h, not_not] at heq
    rcases i with _ | _ | i
    · exact heq
    · exact heq.symm
    · rfl

/-- What the registers tell about the old and the new mode. -/
structure Tells (m : Machine) (changed orig cc : Reg) (old new : StatusRegister) : Prop where
  orig_m : (m.cpu.get orig).getLsbD 12 = old.m
  cc_m : (m.cpu.get cc).getLsbD 12 = new.m
  changed_s : (m.cpu.get changed).getLsbD 13 = (old.s ^^ new.s)
  changed_m : (m.cpu.get changed).getLsbD 12 = (old.m ^^ new.m)

/-- The registers are kept, apart from some. -/
def KeepsRegs (m m' : Machine) (except : List Reg) : Prop :=
  ∀ r ∉ except, m'.cpu.get r = m.cpu.get r

theorem modeTest (x : BitVec 32) :
    (x &&& A64.bitmask 2 20 == 0) = !(x.getLsbD 12 || x.getLsbD 13) := by
  have hbits := Branch.and_beq_zero x (A64.bitmask 2 20) [12, 13] (by decide +kernel) (by decide)
  rw [hbits]
  simp

/-- The lines that test for a change. -/
def testLines (changed : Reg) : List SysOp := [.insn (.andsImmed 31 changed 2 20), .bCc ccEQ 12]

/-- The lines that save A7. -/
def saveLines (orig : Reg) : List SysOp :=
  [.tbz orig SRB_M 3, .movRegToSimd .msp regA7, .b 2, .movRegToSimd .isp regA7]

/-- The lines that load A7. -/
def loadLines (changed cc : Reg) : List SysOp :=
  [ .tbz changed SRB_S 3, .movSimdToReg regA7 .usp, .b 5, .tbz cc SRB_M 3, .movSimdToReg regA7 .msp,
    .b 2, .movSimdToReg regA7 .isp ]

theorem switchStack_eq (changed orig cc : Reg) :
    switchStack changed orig cc =
      testLines changed ++ (saveLines orig ++ loadLines changed cc) :=
  rfl

/-- The machine with the flags of the test. -/
def tested (m : Machine) (changed : Reg) : Machine :=
  { m with cpu := { m.cpu with flags := A64.logicFlags (m.cpu.get changed &&& A64.bitmask 2 20) } }

theorem run_testLines (m : Machine) (changed : Reg) :
    runForward SysOp.effect 0 (testLines changed) m =
      (tested m changed, if m.cpu.get changed &&& A64.bitmask 2 20 == 0 then 11 else 0) := by
  simp only [testLines, runForward, SysOp.effect, A64.step, put_zero]
  rfl

theorem run_saveLines (m : Machine) (orig : Reg) :
    runForward SysOp.effect 0 (saveLines orig) m =
      ({ m with
        bank := Function.update m.bank (if (m.cpu.get orig).getLsbD SRB_M then .msp else .isp)
          (m.cpu.get regA7) }, 0) := by
  cases hbit : (m.cpu.get orig).getLsbD SRB_M <;>
    simp only [saveLines, runForward, SysOp.effect, skipIf, hbit] <;> rfl

theorem run_loadLines (m : Machine) (changed cc : Reg) :
    runForward SysOp.effect 0 (loadLines changed cc) m =
      (m.put regA7 (m.bank (if (m.cpu.get changed).getLsbD SRB_S then .usp
        else if (m.cpu.get cc).getLsbD SRB_M then .msp else .isp)), 0) := by
  cases hs : (m.cpu.get changed).getLsbD SRB_S <;> cases hm : (m.cpu.get cc).getLsbD SRB_M <;>
    simp [loadLines, runForward, SysOp.effect, skipIf, hs, hm]

/-- The modes are the same if neither S nor M has changed. -/
theorem Tells.unchanged (h : Tells m changed orig cc old new)
    (hzero : (m.cpu.get changed &&& A64.bitmask 2 20 == 0) = true) : old.active = new.active := by
  rw [modeTest, Bool.not_eq_true', Bool.or_eq_false_iff, h.changed_m, h.changed_s,
    bne_eq_false_iff_eq, bne_eq_false_iff_eq] at hzero
  rw [StatusRegister.active, StatusRegister.active, hzero.1, hzero.2]

/-- What is saved and loaded is as the modes say. -/
theorem Tells.differ (h : Tells m changed orig cc old new) (hold : old.s = true)
    (hne : (m.cpu.get changed &&& A64.bitmask 2 20 == 0) = false) :
    old.active ≠ new.active ∧
      (if (m.cpu.get orig).getLsbD SRB_M then Bank.msp else .isp) = old.active ∧
        (if (m.cpu.get changed).getLsbD SRB_S then Bank.usp
          else if (m.cpu.get cc).getLsbD SRB_M then .msp else .isp) = new.active := by
  rw [modeTest, Bool.not_eq_false', h.changed_m, h.changed_s, hold] at hne
  simp only [SRB_M, SRB_S, h.orig_m, h.cc_m, h.changed_s, hold, StatusRegister.active]
  cases hs : new.s <;> cases hm : new.m <;> cases hm' : old.m <;> simp [hs, hm, hm'] at hne ⊢

theorem run_switchStack (h : Tells m changed orig cc old new) (hold : old.s = true) :
    ∃ m', runForward SysOp.effect 0 (switchStack changed orig cc) m = (m', 0) ∧
      m'.stacks = m.stacks.switch old.active new.active ∧ KeepsRegs m m' [regA7] := by
  rw [switchStack_eq, runForward_append, run_testLines]
  cases hzero : m.cpu.get changed &&& A64.bitmask 2 20 == 0 with
  | true =>
    refine ⟨tested m changed, rfl, ?_, fun r _ ↦ rfl⟩
    rw [h.unchanged hzero, Stacks.switch_self]
    rfl
  | false =>
    obtain ⟨hne, hsaved, hloaded⟩ := h.differ hold hzero
    rw [if_neg Bool.false_ne_true, runForward_piece (run_saveLines _ _), run_loadLines]
    refine ⟨_, rfl, ?_, fun r hr ↦ Machine.get_put_of_ne _ (by simpa using hr) _⟩
    rw [Stacks.switch_of_ne _ hne]
    have hregs : ∀ r, (tested m changed).cpu.get r = m.cpu.get r := fun r ↦ rfl
    simp only [Machine.stacks, hregs, hsaved, hloaded]
    rw [Machine.get_put _ (by decide)]
    exact congrArg (Stacks.mk · _) (Function.update_of_ne hne.symm _ _)

theorem KeepsRegs.trans {except : List Reg} (h : KeepsRegs m m' except)
    (h' : KeepsRegs m' m'' except) : KeepsRegs m m'' except :=
  fun r hr ↦ (h' r hr).trans (h r hr)

theorem run_insns (ops : List A64.Op) (m : Machine) :
    runForward SysOp.effect 0 (insns ops) m = ({ m with cpu := A64.exec ops m.cpu }, 0) := by
  induction ops generalizing m with
  | nil => rfl
  | cons op ops ih => exact ih _

/-- The lines that write the interrupt mask of the host. -/
def msrLines : List SysOp := [.bCc ccGT 3, .msrImm 3 7 7, .b 2, .msrImm 3 6 7]

theorem run_msrLines (m : Machine) :
    runForward SysOp.effect 0 msrLines m =
      ({ m with daif := writeDaif m.daif (if ccGT.holds m.cpu.flags then 6 else 7) 7 }, 0) := by
  cases hgt : ccGT.holds m.cpu.flags <;> simp [msrLines, runForward, SysOp.effect, skipIf, hgt]

/-- The last lines of an instruction keep A7 and the banks. -/
theorem run_maskInterrupts (m : Machine) (tmp cc : Reg) (htmp : tmp ≠ regA7) :
    ∃ m', runForward SysOp.effect 0 (maskInterrupts tmp cc) m = (m', 0) ∧
      m'.stacks = m.stacks ∧ KeepsRegs m m' [tmp] := by
  have hlines : maskInterrupts tmp cc =
      insns [.andImmed tmp cc 3 24, cmpImmed tmp 0x500] ++ msrLines := rfl
  have hregs : ∀ r ≠ tmp,
      (A64.exec [.andImmed tmp cc 3 24, cmpImmed tmp 0x500] m.cpu).get r = m.cpu.get r := by
    intro r hr
    simp only [A64.exec, List.foldl_cons, List.foldl_nil, A64.step, cmpImmed, put_zero, get_flags]
    exact Cpu.get_put_of_ne _ hr _
  rw [hlines, runForward_piece (run_insns _ _), run_msrLines]
  refine ⟨_, rfl, ?_, fun r hr ↦ hregs r (by simpa using hr)⟩
  exact congrArg (Stacks.mk · m.bank) (hregs regA7 htmp.symm)

theorem run_advance (m : Machine) (bytes : ℕ) :
    ∃ m', runForward SysOp.effect 0 [advance bytes] m = (m', 0) ∧
      m'.stacks = m.stacks ∧ KeepsRegs m m' [regPC] := by
  have hget : ∀ r ≠ regPC, ((advance bytes).effect m).1.cpu.get r = m.cpu.get r := by
    intro r hr
    show (m.cpu.put regPC _).get r = _
    exact Cpu.get_put_of_ne _ hr _
  refine ⟨_, rfl, ?_, fun r hr ↦ hget r (by simpa using hr)⟩
  exact congrArg (Stacks.mk · m.bank) (hget regA7 (by decide))

/-! ### The frame of a privileged instruction -/

/-- The status register, in its register or in its slot. -/
def Machine.sr (m : Machine) (a : Allocation) : BitVec 16 :=
  (if a.ccLoaded then m.cpu.get a.cc else m.cpu.simd .sr).setWidth 16

theorem Allocation.ne_fixed (a : Allocation) {k : Reg}
    (hr : r ∈ [a.cc, a.immed, a.orig, a.changed, a.src, a.tmp]) (hk : k < 4 ∨ 11 < k) : r ≠ k := by
  have hlower := a.lower r hr
  have hupper := a.upper r hr
  rintro rfl
  rcases hk with hk | hk
  · exact absurd hlower (Nat.not_le.mpr hk)
  · exact absurd hupper (Nat.not_le.mpr hk)

theorem get_flushPC (pcRel : ℤ) (s : Cpu) (hr : r ≠ regPC) :
    (A64.exec (flushPC pcRel) s).get r = s.get r := by
  unfold flushPC
  split
  · exact Cpu.get_put_of_ne _ hr _
  split
  · exact Cpu.get_put_of_ne _ hr _
  · rfl

/-- The machine before the code of a privileged instruction. -/
def ready (a : Allocation) (m : Machine) : Machine :=
  { m with
    cpu := A64.exec ((if a.ccLoaded then [] else [.movSimdToReg a.cc .sr]) ++ flushPC a.pcRel)
      m.cpu }

theorem ready_cc (a : Allocation) (m : Machine) :
    ((ready a m).cpu.get a.cc).setWidth 16 = m.sr a := by
  have hpc : a.cc ≠ regPC := a.ne_fixed (by simp) (by decide)
  rw [ready, A64.exec_append, get_flushPC _ _ hpc, Machine.sr]
  cases a.ccLoaded with
  | true => rfl
  | false => 
    have hget := Cpu.get_put m.cpu (a.ne_fixed (k := 31) (r := a.cc) (by simp) (by decide)) (m.cpu.simd .sr)
    exact congrArg (BitVec.setWidth 16) hget

theorem ready_get (a : Allocation) (m : Machine) (hcc : r ≠ a.cc) (hpc : r ≠ regPC) :
    (ready a m).cpu.get r = m.cpu.get r := by
  rw [ready, A64.exec_append, get_flushPC _ _ hpc]
  cases a.ccLoaded with
  | true => rfl
  | false => exact Cpu.get_put_of_ne _ hcc _

theorem ready_stacks (a : Allocation) (m : Machine) : (ready a m).stacks = m.stacks :=
  congrArg (Stacks.mk · m.bank)
    (ready_get a m (a.ne_fixed (by simp) (by decide)).symm (by decide))

/-- In supervisor mode the code of the exception is skipped. -/
theorem run_privileged (code : List SysOp) (hs : (m.sr a).getLsbD 13 = true) :
    runForward SysOp.effect 0 (privileged a code) m =
      runForward SysOp.effect 0 code (ready a m) := by
  have hfirst : modifyCC a ++ insns (flushPC a.pcRel) =
      insns ((if a.ccLoaded then [] else [.movSimdToReg a.cc .sr]) ++ flushPC a.pcRel) := by
    unfold modifyCC
    cases a.ccLoaded <;> rfl
  have hbit : ((ready a m).cpu.get a.cc).getLsbD SRB_S = true := by
    rw [← ready_cc, BitVec.getLsbD_setWidth] at hs
    exact (Bool.and_eq_true_iff.mp hs).2
  have htaken : (SysOp.tbnz a.cc SRB_S
      ((emitException a.cc VECTOR_PRIVILEGE_VIOLATION).length + 2)).effect (ready a m) =
      (ready a m, 10) := by
    simp only [SysOp.effect, hbit]
    rfl
  unfold privileged
  rw [hfirst]
  simp only [List.append_assoc]
  rw [runForward_piece (run_insns _ _)]
  show runForward SysOp.effect _ _ _ = _
  rw [List.singleton_append, runForward_cons, show ({ m with cpu := _ } : Machine) = ready a m from rfl, 
    htaken, ← List.append_assoc]
  exact runForward_skip rfl

/-! ### The instructions -/

inductive SrInsn where
  | ori (val : BitVec 16)
  | andi (val : BitVec 16)
  | eori (val : BitVec 16)
  | moveTo (source : Source) (extWords : ℕ)
  | stop (word : BitVec 16) (wait : Wait)

/-- The machine when MOVE has fetched its operand. -/
def fetchedAt (a : Allocation) (source : Source) (m : Machine) : Machine :=
  let m := { ready a m with
    cpu := A64.exec [movReg 1 a.cc, .movImmedU16 2 0xf71f 0] (ready a m).cpu }
  (runForward SysOp.effect 0 (source.code a.src) m).1

def SrInsn.operand (a : Allocation) (m : Machine) : SrInsn → BitVec 16
  | .ori val | .andi val | .eori val => val
  | .moveTo source _ => ((fetchedAt a source m).cpu.get a.src).setWidth 16
  | .stop word _ => word

/-- A7 and the banks when the instruction has its operand. -/
def SrInsn.stacks (a : Allocation) (m : Machine) : SrInsn → Stacks
  | .moveTo source _ => (fetchedAt a source m).stacks
  | _ => m.stacks

/-- The status register of the 68040 behind the instruction. -/
def SrInsn.result (old : StatusRegister) (operand : BitVec 16) : SrInsn → StatusRegister
  | .ori _ => .ofWord (old.word ||| operand)
  | .andi _ => .ofWord (old.word &&& operand)
  | .eori _ => .ofWord (old.word ^^^ operand)
  | .moveTo _ _ | .stop _ _ => .ofWord operand

def SrInsn.Executes (a : Allocation) (m m' : Machine) : SrInsn → Prop
  | .ori val => m' = exec (emitOriToSR a val) m
  | .andi val => m' = exec (emitAndiToSR a val) m
  | .eori val => m' = exec (emitEoriToSR a val) m
  | .moveTo source extWords => m' = exec (emitMoveToSR a source extWords) m
  | .stop word wait => wait.Ends a.tmp (exec (emitStop a word) m) m'

/-- The machine has the status register of the 68040, and has switched the stacks. -/
structure Agrees (a : Allocation) (before : Stacks) (old new : StatusRegister) (m' : Machine) :
    Prop where
  sr : (m'.cpu.get a.cc).setWidth 16 = new.host
  switched : m'.stacks = before.switch old.active new.active

theorem getLsbD_of_low {y : BitVec 16} (h : x.setWidth 16 = y) {i : ℕ} (hi : i < 16) :
    x.getLsbD i = y.getLsbD i := by
  rw [← h, BitVec.getLsbD_setWidth, decide_eq_true hi, Bool.true_and]

/-- The registers tell the modes if they hold the words. -/
theorem Tells.of_words (horig : (m.cpu.get orig).setWidth 16 = old.host)
    (hcc : (m.cpu.get cc).setWidth 16 = new.host)
    (hchanged : (m.cpu.get changed).setWidth 16 = old.host ^^^ new.host) :
    Tells m changed orig cc old new := by
  refine ⟨?_, ?_, ?_, ?_⟩
  · rw [getLsbD_of_low horig (by decide), StatusRegister.host_m]
  · rw [getLsbD_of_low hcc (by decide), StatusRegister.host_m]
  · rw [getLsbD_of_low hchanged (by decide), BitVec.getLsbD_xor, StatusRegister.host_s,
      StatusRegister.host_s]
  · rw [getLsbD_of_low hchanged (by decide), BitVec.getLsbD_xor, StatusRegister.host_m,
      StatusRegister.host_m]

/-- The part that all instructions but ORI have in common. -/
theorem agrees_of_tells {n : ℕ} (h : Tells m changed orig a.cc old new) (hold : old.s = true)
    (hsr : (m.cpu.get a.cc).setWidth 16 = new.host) (hchanged : changed ≠ regA7)
    (hne : a.cc ≠ changed) :
    Agrees a m.stacks old new
      (runForward SysOp.effect 0
        (switchStack changed orig a.cc ++ ([advance n] ++ maskInterrupts changed a.cc)) m).1 := by
  obtain ⟨m₁, hrun₁, hstacks₁, hkeeps₁⟩ := run_switchStack h hold
  obtain ⟨m₂, hrun₂, hstacks₂, hkeeps₂⟩ := run_advance m₁ n
  obtain ⟨m₃, hrun₃, hstacks₃, hkeeps₃⟩ := run_maskInterrupts m₂ changed a.cc hchanged
  rw [runForward_piece hrun₁, runForward_piece hrun₂, hrun₃]
  have hcc : m₃.cpu.get a.cc = m.cpu.get a.cc := by
    rw [hkeeps₃ a.cc (by simpa using hne), hkeeps₂ a.cc, hkeeps₁ a.cc]
    · exact fun hmem ↦ a.ne_fixed (by simp) (by decide) (List.mem_singleton.mp hmem)
    · exact fun hmem ↦ a.ne_fixed (by simp) (by decide) (List.mem_singleton.mp hmem)
  exact ⟨by rw [hcc, hsr], by rw [hstacks₃, hstacks₂, hstacks₁]⟩

/-! ### What each instruction does before the switch -/

theorem Allocation.distinct (a : Allocation) :
    (a.cc ≠ a.immed ∧ a.cc ≠ a.orig ∧ a.cc ≠ a.changed ∧ a.cc ≠ a.src) ∧
      (a.immed ≠ a.orig ∧ a.immed ≠ a.changed) ∧ a.orig ≠ a.changed := by
  have hnodup := a.nodup
  simp only [List.nodup_cons, List.mem_cons, not_or] at hnodup
  obtain ⟨⟨h₁, h₂, h₃, h₄, -⟩, ⟨h₅, h₆, -⟩, ⟨h₇, -⟩, -⟩ := hnodup
  exact ⟨⟨h₁, h₂, h₃, h₄⟩, ⟨h₅, h₆⟩, h₇⟩

theorem Allocation.ne_zeroRegister (a : Allocation) :
    a.cc ≠ 31 ∧ a.immed ≠ 31 ∧ a.orig ≠ 31 ∧ a.changed ≠ 31 := by
  refine ⟨?_, ?_, ?_, ?_⟩ <;> exact a.ne_fixed (by simp) (by decide)

theorem Allocation.ne_a7 (a : Allocation) :
    regA7 ≠ a.cc ∧ regA7 ≠ a.immed ∧ regA7 ≠ a.orig ∧ regA7 ≠ a.changed := by
  refine ⟨?_, ?_, ?_, ?_⟩ <;> exact (a.ne_fixed (by simp) (by decide)).symm

theorem movImmed_low (v : BitVec 16) : (v.zeroExtend 32 <<< (16 * 0)).setWidth 16 = v := by
  rw [Nat.mul_zero, BitVec.shiftLeft_zero, BitVec.setWidth_setWidth_of_le _ (by decide),
    BitVec.setWidth_eq]

theorem host_ofWord (w : BitVec 16) : (StatusRegister.ofWord w).host = swapCV w &&& 0xf71f := by
  rw [StatusRegister.host, StatusRegister.ofWord, swapCV_and, swapCV_implemented]
  rfl

theorem host_implemented (sr : StatusRegister) : sr.host &&& 0xf71f = sr.host := by
  have himplemented := congrArg swapCV sr.implemented
  rwa [swapCV_and, swapCV_implemented] at himplemented

/-- A run of code that begins with straight instructions. -/
theorem exec_privileged (ops : List A64.Op) (code : List SysOp) (hs : (m.sr a).getLsbD 13 = true) :
    exec (privileged a (insns ops ++ code)) m =
      (runForward SysOp.effect 0 code
        { ready a m with cpu := A64.exec ops (ready a m).cpu }).1 := by
  rw [exec, run_privileged _ hs, runForward_piece (run_insns _ _)]

/-- What the lines before the switch have to do. -/
theorem agrees_of_front (ops : List A64.Op) (changed orig : Reg) (n : ℕ) (hsr : m.sr a = old.host) (hs : old.s = true)
    (horig : ((A64.exec ops (ready a m).cpu).get orig).setWidth 16 = old.host)
    (hcc : ((A64.exec ops (ready a m).cpu).get a.cc).setWidth 16 = new.host)
    (hchanged : ((A64.exec ops (ready a m).cpu).get changed).setWidth 16 = old.host ^^^ new.host)
    (ha7 : (A64.exec ops (ready a m).cpu).get regA7 = (ready a m).cpu.get regA7)
    (hne : a.cc ≠ changed) (hfixed : changed ≠ regA7) :
    Agrees a m.stacks old new
      (exec (privileged a (insns ops ++ switchStack changed orig a.cc ++ [advance n] ++
        maskInterrupts changed a.cc)) m) := by
  have hbit : (m.sr a).getLsbD 13 = true := by rw [hsr, StatusRegister.host_s, hs]
  simp only [List.append_assoc]
  rw [exec_privileged _ _ hbit]
  have htells : Tells { ready a m with cpu := A64.exec ops (ready a m).cpu } changed orig a.cc
      old new := .of_words horig hcc hchanged
  have hagrees := agrees_of_tells (n := n) htells hs hcc hfixed hne
  have hstacks : ({ ready a m with cpu := A64.exec ops (ready a m).cpu } : Machine).stacks =
      m.stacks := by
    rw [← ready_stacks a m]
    exact congrArg (Stacks.mk · m.bank) ha7
  rwa [hstacks] at hagrees

theorem agrees_andi (val : BitVec 16) (hsr : m.sr a = old.host) (hs : old.s = true) :
    Agrees a m.stacks old (.ofWord (old.word &&& val)) (exec (emitAndiToSR a val) m) := by
  obtain ⟨⟨h₁, h₂, h₃, -⟩, ⟨h₄, h₅⟩, h₆⟩ := a.distinct
  obtain ⟨h₇, h₈, h₉, h₁₀⟩ := a.ne_zeroRegister
  obtain ⟨h₁₁, h₁₂, h₁₃, h₁₄⟩ := a.ne_a7
  have hold := ready_cc a m
  rw [hsr] at hold
  have hnew : (StatusRegister.ofWord (old.word &&& val)).host =
      old.host &&& (exchangeCV val &&& 0xf71f) := by
    rw [host_ofWord, swapCV_and, exchangeCV_eq (by decide), BitVec.and_assoc]
    rfl
  let ops : List A64.Op := [.movImmedU16 a.immed (exchangeCV val &&& 0xf71f) 0,
    movReg a.orig a.cc, .andReg a.cc a.cc a.immed .LSL 0, eorReg a.changed a.orig a.cc]
  let s := A64.exec ops (ready a m).cpu
  have horig : s.get a.orig = (ready a m).cpu.get a.cc := by
    simp [s, ops, A64.exec, A64.step, movReg, eorReg, A64.Shift.apply, Cpu.get_put,
      Cpu.get_put_of_ne, Cpu.get_zero, h₁, h₂.symm, h₄, h₆, h₉]
  have hcc : s.get a.cc = (ready a m).cpu.get a.cc &&&
      (exchangeCV val &&& 0xf71f).zeroExtend 32 <<< (16 * 0) := by
    simp [s, ops, A64.exec, A64.step, movReg, eorReg, A64.Shift.apply, Cpu.get_put,
      Cpu.get_put_of_ne, h₁, h₂, h₃, h₄, h₇, h₈]
  have hchanged : s.get a.changed = s.get a.orig ^^^ s.get a.cc := by
    simp [s, ops, A64.exec, A64.step, movReg, eorReg, A64.Shift.apply, Cpu.get_put,
      Cpu.get_put_of_ne, h₁, h₂, h₃, h₄, h₆, h₇, h₈, h₁₀]
  have ha7 : s.get regA7 = (ready a m).cpu.get regA7 := by
    simp [s, ops, A64.exec, A64.step, movReg, eorReg, Cpu.get_put_of_ne, h₁₁, h₁₂, h₁₃, h₁₄]
  have hlow : (s.get a.cc).setWidth 16 = (StatusRegister.ofWord (old.word &&& val)).host := by
    rw [hcc, BitVec.setWidth_and, hold, movImmed_low, hnew]
  refine agrees_of_front ops a.changed a.orig 4 hsr hs ?_ hlow ?_ ha7 h₃ h₁₄.symm
  · exact (congrArg _ horig).trans hold
  · rw [hchanged, BitVec.setWidth_xor, hlow, horig, hold]

theorem xor_and_right (x y z : BitVec w) : (x ^^^ y) &&& z = (x &&& z) ^^^ (y &&& z) := by
  refine BitVec.eq_of_getLsbD_eq fun i _ ↦ ?_
  simp only [BitVec.getLsbD_and, BitVec.getLsbD_xor, Bool.and_xor_distrib_right]

theorem or_and_right (x y z : BitVec w) : (x ||| y) &&& z = (x &&& z) ||| (y &&& z) := by
  refine BitVec.eq_of_getLsbD_eq fun i _ ↦ ?_
  simp only [BitVec.getLsbD_and, BitVec.getLsbD_or, Bool.and_or_distrib_right]

theorem agrees_eori (val : BitVec 16) (hsr : m.sr a = old.host) (hs : old.s = true) :
    Agrees a m.stacks old (.ofWord (old.word ^^^ val)) (exec (emitEoriToSR a val) m) := by
  obtain ⟨⟨h₁, h₂, -⟩, ⟨h₄, -⟩, -⟩ := a.distinct
  obtain ⟨h₇, h₈, h₉, -⟩ := a.ne_zeroRegister
  obtain ⟨h₁₁, h₁₂, h₁₃, -⟩ := a.ne_a7
  have hold := ready_cc a m
  rw [hsr] at hold
  have hnew : (StatusRegister.ofWord (old.word ^^^ val)).host =
      old.host ^^^ (exchangeCV val &&& 0xf71f) := by
    rw [host_ofWord, swapCV_xor, xor_and_right, exchangeCV_eq (by decide)]
    exact congrArg (· ^^^ _) (host_implemented old)
  let ops : List A64.Op := [.movImmedU16 a.immed (exchangeCV val &&& 0xf71f) 0,
    movReg a.orig a.cc, eorReg a.cc a.cc a.immed]
  let s := A64.exec ops (ready a m).cpu
  have himmed : s.get a.immed = (exchangeCV val &&& 0xf71f).zeroExtend 32 <<< (16 * 0) := by
    simp [s, ops, A64.exec, A64.step, movReg, eorReg, Cpu.get_put, Cpu.get_put_of_ne, h₁.symm, h₄,
      h₈]
  have horig : s.get a.orig = (ready a m).cpu.get a.cc := by
    simp [s, ops, A64.exec, A64.step, movReg, eorReg, A64.Shift.apply, Cpu.get_put,
      Cpu.get_put_of_ne, Cpu.get_zero, h₁, h₂.symm, h₄, h₉]
  have hcc : s.get a.cc = (ready a m).cpu.get a.cc ^^^ s.get a.immed := by
    simp [s, ops, A64.exec, A64.step, movReg, eorReg, A64.Shift.apply, Cpu.get_put,
      Cpu.get_put_of_ne, h₁, h₁.symm, h₂, h₄, h₇, h₈]
  have ha7 : s.get regA7 = (ready a m).cpu.get regA7 := by
    simp [s, ops, A64.exec, A64.step, movReg, eorReg, Cpu.get_put_of_ne, h₁₁, h₁₂, h₁₃]
  have hlow : (s.get a.cc).setWidth 16 = (StatusRegister.ofWord (old.word ^^^ val)).host := by
    rw [hcc, BitVec.setWidth_xor, hold, himmed, movImmed_low, hnew]
  refine agrees_of_front ops a.immed a.orig 4 hsr hs ?_ hlow ?_ ha7 h₁ h₁₂.symm
  · exact (congrArg _ horig).trans hold
  · rw [hnew, ← BitVec.xor_assoc, BitVec.xor_self, BitVec.zero_xor]
    exact (congrArg _ himmed).trans (movImmed_low _)

theorem agrees_stop (word : BitVec 16) (hsr : m.sr a = old.host) (hs : old.s = true) :
    Agrees a m.stacks old (.ofWord word) (exec (emitStop a word) m) := by
  obtain ⟨⟨-, h₂, h₃, -⟩, -, h₆⟩ := a.distinct
  obtain ⟨h₇, -, h₉, h₁₀⟩ := a.ne_zeroRegister
  obtain ⟨h₁₁, -, h₁₃, h₁₄⟩ := a.ne_a7
  have hold := ready_cc a m
  rw [hsr] at hold
  let ops : List A64.Op := [movReg a.orig a.cc,
    .movImmedU16 a.cc (exchangeCV (word &&& 0xf71f)) 0, eorReg a.changed a.orig a.cc]
  let s := A64.exec ops (ready a m).cpu
  have horig : s.get a.orig = (ready a m).cpu.get a.cc := by
    simp [s, ops, A64.exec, A64.step, movReg, eorReg, A64.Shift.apply, Cpu.get_put,
      Cpu.get_put_of_ne, Cpu.get_zero, h₂.symm, h₆, h₉]
  have hcc : s.get a.cc = (exchangeCV (word &&& 0xf71f)).zeroExtend 32 <<< (16 * 0) := by
    simp [s, ops, A64.exec, A64.step, movReg, eorReg, Cpu.get_put, Cpu.get_put_of_ne, h₃, h₇]
  have hchanged : s.get a.changed = s.get a.orig ^^^ s.get a.cc := by
    simp [s, ops, A64.exec, A64.step, movReg, eorReg, A64.Shift.apply, Cpu.get_put,
      Cpu.get_put_of_ne, h₂.symm, h₃, h₆, h₇, h₁₀]
  have ha7 : s.get regA7 = (ready a m).cpu.get regA7 := by
    simp [s, ops, A64.exec, A64.step, movReg, eorReg, Cpu.get_put_of_ne, h₁₁, h₁₃, h₁₄]
  have hlow : (s.get a.cc).setWidth 16 = (StatusRegister.ofWord word).host := by
    rw [hcc, movImmed_low, exchangeCV_eq (by decide)]
    rfl
  refine agrees_of_front ops a.changed a.orig 4 hsr hs ?_ hlow ?_ ha7 h₃ h₁₄.symm
  · exact (congrArg _ horig).trans hold
  · rw [hchanged, BitVec.setWidth_xor, hlow, horig, hold]

/-- While STOP waits, only a register of its own is written. -/
theorem Agrees.ends {before : Stacks} {wait : Wait} (h : wait.Ends a.tmp m m')
    (hagrees : Agrees a before old new m) : Agrees a before old new m' := by
  have hnodup := a.nodup
  simp only [List.nodup_cons, List.mem_cons, not_or] at hnodup
  have hcc : a.cc ≠ a.tmp := hnodup.1.2.2.2.2.1
  have ha7 : regA7 ≠ a.tmp := (a.ne_fixed (by simp) (by decide)).symm
  have hput : ∀ {m : Machine} (x : BitVec 32), Agrees a before old new m →
      Agrees a before old new (m.put a.tmp x) := by
    intro m x hm
    refine ⟨by rw [Machine.get_put_of_ne _ hcc, hm.sr], ?_⟩
    rw [← hm.switched]
    exact congrArg (Stacks.mk · m.bank) (Machine.get_put_of_ne _ ha7 _)
  induction h with
  | interrupt m => exact hagrees
  | pending m INT64 h => exact hput _ hagrees
  | event m m' h ih => exact ih (hput _ hagrees)

/-- `rbit` and `bfxil` bring C and V to the other order. -/
theorem insertReversed (x : BitVec 32) :
    (A64.insertBits x (x.reverse >>> 30) 0 2).setWidth 16 = swapCV (x.setWidth 16) := by
  refine BitVec.eq_of_getLsbD_eq fun i hi ↦ ?_
  rw [getLsbD_swapCV _ hi]
  simp only [A64.insertBits, BitVec.shiftLeft_zero, BitVec.getLsbD_setWidth, BitVec.getLsbD_or,
    BitVec.getLsbD_and, BitVec.getLsbD_not, A64.getLsbD_lowMask, BitVec.getLsbD_ushiftRight,
    BitVec.getLsbD_reverse, BitVec.getMsbD_eq_getLsbD, hi]
  rcases i with _ | _ | i
  · simp
  · simp
  · simp [show i + 1 + 1 < 32 by omega, hi]

theorem run_source (source : Source) (src : Reg) (m : Machine) :
    (runForward SysOp.effect 0 (source.code src) m).2 = 0 := by
  cases source <;> rfl

/-- The operand is fetched without touching what MOVE has put aside. -/
theorem source_keeps (source : Source) (m : Machine) (hr : r < 4) :
    (runForward SysOp.effect 0 (source.code a.src) m).1.cpu.get r = m.cpu.get r := by
  cases source with
  | dataRegister d =>
    have hsrc : 4 ≤ a.src := a.lower _ (by simp)
    exact Cpu.get_put_of_ne _ (Nat.lt_of_lt_of_le hr hsrc).ne _
  | fetched run keeps => exact (keeps m).2 r hr

/-- The operand in a data register is its low word. -/
theorem operand_dataRegister (a : Allocation) (m : Machine) (d : Fin 8) (extWords : ℕ) :
    (SrInsn.moveTo (.dataRegister d) extWords).operand a m =
      (m.cpu.get (Branch.mapM68kRegister d)).setWidth 16 := by
  have hmap : ∀ d : Fin 8, Branch.mapM68kRegister d ≠ 1 ∧ Branch.mapM68kRegister d ≠ 2 ∧
      Branch.mapM68kRegister d ≠ regPC ∧ 11 < Branch.mapM68kRegister d := by decide
  obtain ⟨h₁, h₂, hpc, hhigh⟩ := hmap d
  have hcc : Branch.mapM68kRegister d ≠ a.cc :=
    (Nat.lt_of_le_of_lt (a.upper a.cc (by simp)) hhigh).ne'
  have hsrc : a.src ≠ 31 := a.ne_fixed (by simp) (by decide)
  rw [← ready_get a m hcc hpc]
  simp [SrInsn.operand, fetchedAt, Source.code, runForward, SysOp.effect, A64.exec, A64.step, movReg,
    A64.Shift.apply, Cpu.get_put, Cpu.get_put_of_ne, Cpu.get_zero, hsrc, h₁, h₂]

theorem agrees_moveTo (source : Source) (extWords : ℕ) (hsr : m.sr a = old.host)
    (hs : old.s = true) :
    Agrees a ((SrInsn.moveTo source extWords).stacks a m) old
      (.ofWord ((SrInsn.moveTo source extWords).operand a m))
      (exec (emitMoveToSR a source extWords) m) := by
  have hbit : (m.sr a).getLsbD 13 = true := by rw [hsr, StatusRegister.host_s, hs]
  have hcc₀ : a.cc ≠ 0 ∧ a.cc ≠ 1 ∧ a.cc ≠ 2 := by
    refine ⟨?_, ?_, ?_⟩ <;> exact a.ne_fixed (by simp) (by decide)
  have hsrc₀ : a.src ≠ 0 ∧ a.src ≠ 1 ∧ a.src ≠ 2 := by
    refine ⟨?_, ?_, ?_⟩ <;> exact a.ne_fixed (by simp) (by decide)
  have hccSrc := a.distinct.1.2.2.2
  have hfixed : a.src ≠ 31 ∧ a.cc ≠ 31 ∧ regA7 ≠ a.src ∧ regA7 ≠ a.cc := by
    refine ⟨?_, ?_, ?_, ?_⟩ <;>
      first
      | exact a.ne_fixed (by simp) (by decide)
      | exact (a.ne_fixed (by simp) (by decide)).symm
  have hold := ready_cc a m
  rw [hsr] at hold
  let m₀ : Machine := { ready a m with
    cpu := A64.exec [movReg 1 a.cc, .movImmedU16 2 0xf71f 0] (ready a m).cpu }
  let x := fetchedAt a source m
  have hfetch : runForward SysOp.effect 0 (source.code a.src) m₀ = (x, 0) :=
    Prod.ext rfl (run_source source a.src m₀)
  let ops : List A64.Op := [.rbit 0 a.src, bfxil a.src 0 30 2, .andReg a.cc 2 a.src .LSL 0,
    eorReg 2 1 a.cc]
  let s := A64.exec ops x.cpu
  have hone : x.cpu.get 1 = (ready a m).cpu.get a.cc := by
    rw [show x.cpu.get 1 = m₀.cpu.get 1 from source_keeps source m₀ (by decide)]
    simp [m₀, A64.exec, A64.step, movReg, A64.Shift.apply, Cpu.get_put, Cpu.get_put_of_ne,
      Cpu.get_zero]
  have htwo : x.cpu.get 2 = (0xf71f : BitVec 16).zeroExtend 32 <<< (16 * 0) := by
    rw [show x.cpu.get 2 = m₀.cpu.get 2 from source_keeps source m₀ (by decide)]
    exact Cpu.get_put _ (by decide) _
  have horig : s.get 1 = x.cpu.get 1 := by
    simp [s, ops, A64.exec, A64.step, bfxil, eorReg, Cpu.get_put_of_ne, hcc₀.2.1.symm,
      hsrc₀.2.1.symm]
  have hcc : s.get a.cc =
      x.cpu.get 2 &&& A64.insertBits (x.cpu.get a.src) ((x.cpu.get a.src).reverse >>> 30) 0 2 := by
    simp [s, ops, A64.exec, A64.step, bfxil, eorReg, A64.Shift.apply, Cpu.get_put,
      Cpu.get_put_of_ne, hcc₀, hsrc₀, hsrc₀.2.2.symm, hfixed]
  have hchanged : s.get 2 = s.get 1 ^^^ s.get a.cc := by
    simp [s, ops, A64.exec, A64.step, bfxil, eorReg, A64.Shift.apply, Cpu.get_put,
      Cpu.get_put_of_ne, hcc₀]
  have ha7 : s.get regA7 = x.cpu.get regA7 := by
    have hlow : regA7 ≠ 0 ∧ regA7 ≠ 2 := by decide
    simp [s, ops, A64.exec, A64.step, bfxil, eorReg, Cpu.get_put_of_ne, hlow, hfixed]
  have hlow : (s.get a.cc).setWidth 16 =
      (StatusRegister.ofWord ((SrInsn.moveTo source extWords).operand a m)).host := by
    rw [hcc, BitVec.setWidth_and, htwo, movImmed_low, insertReversed, host_ofWord, BitVec.and_comm]
    rfl
  have htells : Tells { x with cpu := s } 2 1 a.cc old
      (.ofWord ((SrInsn.moveTo source extWords).operand a m)) := by
    refine .of_words ?_ hlow ?_
    · show (s.get 1).setWidth 16 = _
      rw [horig, hone, hold]
    · show (s.get 2).setWidth 16 = _
      rw [hchanged, BitVec.setWidth_xor, hlow, horig, hone, hold]
  have hagrees := agrees_of_tells (n := 2 * (extWords + 1)) htells hs hlow (by decide) hcc₀.2.2
  have hstacks : ({ x with cpu := s } : Machine).stacks = x.stacks :=
    congrArg (Stacks.mk · x.bank) ha7
  rw [hstacks] at hagrees
  unfold emitMoveToSR
  simp only [List.append_assoc]
  show Agrees _ _ _ _ (exec (privileged a (insns [movReg 1 a.cc, .movImmedU16 2 0xf71f 0] ++ _)) m)
  rw [exec_privileged _ _ hbit, runForward_piece hfetch]
  show Agrees _ _ _ _ (runForward SysOp.effect 0 (insns ops ++ _) x).1
  rw [runForward_piece (run_insns _ _)]
  exact hagrees

/-! ### ORI -/

/-- The lines of ORI that exchange the stacks. -/
def oriLines (changed cc : Reg) : List SysOp :=
  [ .tbz changed SRB_M 7, .tbz cc SRB_M 4, .movRegToSimd .msp regA7, .movSimdToReg regA7 .isp, .b 3,
    .movRegToSimd .isp regA7, .movSimdToReg regA7 .msp ]

/-- M is set where it was clear: A7 goes to the master's bank and comes from the interrupt's. -/
def exchanged (s : Stacks) : Stacks := ⟨s.bank .isp, Function.update s.bank .msp s.a7⟩

theorem run_oriLines (m : Machine) (changed cc : Reg) (hcc : (m.cpu.get cc).getLsbD SRB_M = true ∨
    (m.cpu.get changed).getLsbD SRB_M = false) :
    ∃ m', runForward SysOp.effect 0 (oriLines changed cc) m = (m', 0) ∧
      m'.stacks = (if (m.cpu.get changed).getLsbD SRB_M then exchanged m.stacks else m.stacks) ∧
        KeepsRegs m m' [regA7] := by
  cases hchanged : (m.cpu.get changed).getLsbD SRB_M with
  | false =>
    refine ⟨m, ?_, rfl, fun r _ ↦ rfl⟩
    simp [oriLines, runForward, SysOp.effect, skipIf, hchanged]
  | true =>
    have hm : (m.cpu.get cc).getLsbD SRB_M = true := hcc.resolve_right (by rw [hchanged]; decide)
    refine ⟨({ m with bank := Function.update m.bank .msp (m.cpu.get regA7) } : Machine).put regA7
      (m.bank .isp), ?_, ?_, fun r hr ↦ (Machine.get_put_of_ne _ (by simpa using hr) _).trans rfl⟩
    · simp [oriLines, runForward, SysOp.effect, skipIf, hchanged, hm]
    · exact congrArg (Stacks.mk · _) (Machine.get_put _ (by decide) _)

/-- The exchange is the switch if all stack pointers are the same. -/
theorem exchanged_eq_iff (s : Stacks) :
    exchanged s = s.switch .isp .msp ↔ s.a7 = s.bank .isp ∧ s.bank .isp = s.bank .msp := by
  rw [Stacks.switch_of_ne s (by decide), exchanged, Stacks.mk.injEq]
  constructor
  · rintro ⟨hbanks, hupdate⟩
    have hisp := congrFun hupdate .isp
    rw [Function.update_of_ne (by decide), Function.update_self] at hisp
    exact ⟨hisp.symm, hbanks⟩
  · rintro ⟨ha7, hbanks⟩
    refine ⟨hbanks, ?_⟩
    rw [ha7, Function.update_eq_self, hbanks, Function.update_eq_self]

/-- ORI sets M in interrupt mode, where not all the stack pointers are the same. -/
def Exchanges (s : Stacks) (old : StatusRegister) (operand : BitVec 16) : Prop :=
  old.m = false ∧ operand.getLsbD 12 = true ∧ ¬(s.a7 = s.bank .isp ∧ s.bank .isp = s.bank .msp)

theorem ofWord_or_m (old : StatusRegister) (val : BitVec 16) :
    (StatusRegister.ofWord (old.word ||| val)).m = (old.m || val.getLsbD 12) := by
  rw [StatusRegister.m, StatusRegister.ofWord, BitVec.getLsbD_and, BitVec.getLsbD_or,
    show srImplemented.getLsbD 12 = true by decide, Bool.and_true]
  rfl

theorem ofWord_or_s (val : BitVec 16) (hs : old.s = true) :
    (StatusRegister.ofWord (old.word ||| val)).s = true := by
  rw [StatusRegister.s] at hs
  rw [StatusRegister.s, StatusRegister.ofWord, BitVec.getLsbD_and, BitVec.getLsbD_or, hs,
    show srImplemented.getLsbD 13 = true by decide]
  rfl

theorem agrees_ori_iff (val : BitVec 16) (hsr : m.sr a = old.host) (hs : old.s = true) :
    Agrees a m.stacks old (.ofWord (old.word ||| val)) (exec (emitOriToSR a val) m) ↔
      ¬Exchanges m.stacks old val := by
  have hbit : (m.sr a).getLsbD 13 = true := by rw [hsr, StatusRegister.host_s, hs]
  obtain ⟨⟨h₁, h₂, h₃, -⟩, ⟨h₄, h₅⟩, h₆⟩ := a.distinct
  obtain ⟨h₇, h₈, -, h₁₀⟩ := a.ne_zeroRegister
  obtain ⟨h₁₁, h₁₂, -, h₁₄⟩ := a.ne_a7
  have hold := ready_cc a m
  rw [hsr] at hold
  have hnew : (StatusRegister.ofWord (old.word ||| val)).host =
      old.host ||| (exchangeCV val &&& 0xf71f) := by
    rw [host_ofWord, swapCV_or, or_and_right, exchangeCV_eq (by decide)]
    exact congrArg (· ||| _) (host_implemented old)
  let new := StatusRegister.ofWord (old.word ||| val)
  let ops : List A64.Op := [.movImmedU16 a.immed (exchangeCV val &&& 0xf71f) 0,
    movReg a.changed a.cc, .orrReg a.cc a.cc a.immed .LSL 0, eorReg a.changed a.changed a.cc]
  let s := A64.exec ops (ready a m).cpu
  have hcc : s.get a.cc = (ready a m).cpu.get a.cc |||
      (exchangeCV val &&& 0xf71f).zeroExtend 32 <<< (16 * 0) := by
    simp [s, ops, A64.exec, A64.step, movReg, eorReg, A64.Shift.apply, Cpu.get_put,
      Cpu.get_put_of_ne, h₁, h₃, h₅, h₇, h₈]
  have hchanged : s.get a.changed = (ready a m).cpu.get a.cc ^^^ s.get a.cc := by
    simp [s, ops, A64.exec, A64.step, movReg, eorReg, A64.Shift.apply, Cpu.get_put,
      Cpu.get_put_of_ne, Cpu.get_zero, h₁, h₃, h₃.symm, h₅, h₇, h₈, h₁₀]
  have ha7 : s.get regA7 = (ready a m).cpu.get regA7 := by
    simp [s, ops, A64.exec, A64.step, movReg, eorReg, Cpu.get_put_of_ne, h₁₁, h₁₂, h₁₄]
  have hlow : (s.get a.cc).setWidth 16 = new.host := by
    rw [hcc, BitVec.setWidth_or, hold, movImmed_low, hnew]
  have hxor : (s.get a.changed).setWidth 16 = old.host ^^^ new.host := by
    rw [hchanged, BitVec.setWidth_xor, hlow, hold]
  have hnew_m : (s.get a.cc).getLsbD SRB_M = new.m :=
    (getLsbD_of_low hlow (by decide)).trans new.host_m
  have hchanged_m : (s.get a.changed).getLsbD SRB_M = (old.m ^^ new.m) := by
    rw [SRB_M, getLsbD_of_low hxor (by decide), BitVec.getLsbD_xor, StatusRegister.host_m,
      StatusRegister.host_m]
  have hor_m : new.m = (old.m || val.getLsbD 12) := ofWord_or_m old val
  have hor_s : new.s = true := ofWord_or_s val hs
  have hm : (s.get a.cc).getLsbD SRB_M = true ∨ (s.get a.changed).getLsbD SRB_M = false := by
    rw [hnew_m, hchanged_m, hor_m]
    cases old.m <;> cases val.getLsbD 12 <;> decide
  obtain ⟨m₁, hrun₁, hstacks₁, hkeeps₁⟩ :=
    run_oriLines { ready a m with cpu := s } a.changed a.cc hm
  obtain ⟨m₂, hrun₂, hstacks₂, hkeeps₂⟩ := run_advance m₁ 4
  obtain ⟨m₃, hrun₃, hstacks₃, hkeeps₃⟩ := run_maskInterrupts m₂ a.changed a.cc h₁₄.symm
  have hrun : exec (emitOriToSR a val) m = m₃ := by
    show exec (privileged a (insns ops ++
      (oriLines a.changed a.cc ++ ([advance 4] ++ maskInterrupts a.changed a.cc)))) m = m₃
    rw [exec_privileged _ _ hbit, runForward_piece hrun₁, runForward_piece hrun₂, hrun₃]
  have hcc₃ : m₃.cpu.get a.cc = s.get a.cc := by
    rw [hkeeps₃ a.cc (by simpa using h₃), hkeeps₂ a.cc, hkeeps₁ a.cc]
    · exact fun hmem ↦ h₁₁ (List.mem_singleton.mp hmem).symm
    · exact fun hmem ↦ a.ne_fixed (by simp) (by decide) (List.mem_singleton.mp hmem)
  have hbase : ({ ready a m with cpu := s } : Machine).stacks = m.stacks := by
    rw [← ready_stacks a m]
    exact congrArg (Stacks.mk · m.bank) ha7
  rw [hstacks₂, hstacks₁, hbase, hchanged_m, hor_m] at hstacks₃
  have hold_active : old.active = if old.m then .msp else .isp := if_pos hs
  have hnew_active : new.active = if new.m then .msp else .isp := if_pos hor_s
  have hiff : Agrees a m.stacks old new m₃ ↔
      m₃.stacks = m.stacks.switch old.active new.active :=
    ⟨fun h ↦ h.switched, fun h ↦ ⟨by rw [hcc₃, hlow], h⟩⟩
  rw [hrun, hiff, hstacks₃, hold_active, hnew_active, hor_m, Exchanges]
  cases old.m with
  | true => simp [Stacks.switch_self]
  | false =>
    cases val.getLsbD 12 with
    | false => simp [Stacks.switch_self]
    | true => simpa using exchanged_eq_iff m.stacks

/-! ### Every instruction -/

/-- The instruction is an ORI that sets M. -/
def SrInsn.SetsMaster (insn : SrInsn) (s : Stacks) (old : StatusRegister) : Prop :=
  ∃ val, insn = .ori val ∧ Exchanges s old val

/-- In supervisor mode, and for every operand: the status register and the switch are those of the
68040 unless ORI sets M. -/
theorem agrees_insn_iff (insn : SrInsn) (hsr : m.sr a = old.host) (hs : old.s = true)
    (hexec : insn.Executes a m m') :
    Agrees a (insn.stacks a m) old (insn.result old (insn.operand a m)) m' ↔
      ¬insn.SetsMaster m.stacks old := by
  cases insn with
  | ori val =>
    subst hexec
    have hiff := agrees_ori_iff val hsr hs
    refine hiff.trans (not_congr ⟨fun h ↦ ⟨val, rfl, h⟩, ?_⟩)
    rintro ⟨val', heq, h⟩
    cases heq
    exact h
  | andi val =>
    subst hexec
    exact iff_of_true (agrees_andi val hsr hs) (by rintro ⟨_, ⟨⟩, _⟩)
  | eori val =>
    subst hexec
    exact iff_of_true (agrees_eori val hsr hs) (by rintro ⟨_, ⟨⟩, _⟩)
  | moveTo source extWords =>
    subst hexec
    exact iff_of_true (agrees_moveTo source extWords hsr hs) (by rintro ⟨_, ⟨⟩, _⟩)
  | stop word wait =>
    exact iff_of_true ((agrees_stop word hsr hs).ends hexec) (by rintro ⟨_, ⟨⟩, _⟩)

/-- Six registers of the allocator. -/
def someAllocation : Allocation where
  pcRel := 0
  ccLoaded := true
  cc := 4
  immed := 5
  orig := 6
  changed := 7
  src := 8
  tmp := 9
  lower := by decide
  upper := by decide
  nodup := by decide

/-- A machine in interrupt mode, with different stack pointers. -/
def interruptMode : Machine where
  cpu := ⟨fun r ↦ if r = 4 then 0x2000 else if r = 29 then 0x1000 else 0, ⟨false, false, false, false⟩,
    fun _ ↦ 0, fun _ ↦ 0⟩
  bank b := match b with
    | .usp => 0x4000
    | .isp => 0x2000
    | .msp => 0x3000
  daif := 0
  VBR := 0

/-- ANDI that goes to user mode. -/
theorem agrees_insn_iff_andi :
    Agrees someAllocation ((SrInsn.andi 0x0000).stacks someAllocation interruptMode) (.ofWord 0x2000)
        ((SrInsn.andi 0x0000).result (.ofWord 0x2000)
          ((SrInsn.andi 0x0000).operand someAllocation interruptMode))
        (exec (emitAndiToSR someAllocation 0x0000) interruptMode) ↔
      ¬(SrInsn.andi 0x0000).SetsMaster interruptMode.stacks (.ofWord 0x2000) :=
  agrees_insn_iff (.andi 0x0000) (by decide +kernel) (by decide) rfl

/-- ORI that sets M puts A7 into the bank of the mode that it enters. -/
theorem not_agrees_ori :
    ¬ ∀ (insn : SrInsn) (a : Allocation) (m m' : Machine) (old : StatusRegister),
      m.sr a = old.host → old.s = true → insn.Executes a m m' →
        Agrees a (insn.stacks a m) old (insn.result old (insn.operand a m)) m' := by
  intro hall
  have hagrees := hall (.ori 0x1000) someAllocation interruptMode _ (.ofWord 0x2000)
    (by decide +kernel) (by decide) rfl
  have hbank := congrArg (Stacks.bank · .msp) hagrees.switched
  revert hbank
  decide +kernel

end Emu68.Supervisor

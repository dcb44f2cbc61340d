import Emu68.Supervisor.StackSwitch

/-!
RTE undoes the entry into an exception. The handler may have done anything as long as the frame is
on top of the stack, A7 and the banks are as they were, and the mode is that of the handler.
-/

set_option autoImplicit false
set_option relaxedAutoImplicit false

namespace Emu68.Supervisor

open A64 (Reg Cpu ccEQ ccNE movReg bfxil)
open Branch (regPC)
open Lib (runForward runForward_append runForward_step runForward_piece runForward_skip)

variable {m m' e : Machine} {r : Reg} {a : Allocation} {sr : StatusRegister}

/-! ### The entry -/

/-- An exception with a format 0 or a format 2 frame, or an interrupt. What the register of the
status register holds above its 16 bits does not matter. -/
inductive Entry where
  | exception (SR : BitVec 32) (format2 : Bool) (vector : BitVec 12) (ea fault : BitVec 32)
  | interrupt (level : BitVec 3)

/-- The vector, and above it the format. -/
def Entry.type : Entry → BitVec 32
  | .exception _ format2 vector _ _ => (if format2 then 0x2000 else 0) ||| vector.setWidth 32
  | .interrupt level => 0x60 + level.setWidth 32 <<< 2

/-- The status register before the entry, as the host has it. -/
def Entry.hostSR (m : Machine) : Entry → BitVec 32
  | .exception SR _ _ _ _ => SR
  | .interrupt _ => ((m.cpu.simd .sr).setWidth 16).setWidth 32

/-- The machine at the handler, and its status register. -/
def Entry.enter (m : Machine) : Entry → Machine × BitVec 32
  | .exception SR format2 vector ea fault =>
    m68kException m SR ((if format2 then 0x2000 else 0) ||| vector.setWidth 32) ea fault
  | .interrupt level => (mainLoopInterrupt m level, (mainLoopInterrupt m level).cpu.simd .sr)

/-- How much is pushed. -/
def Entry.size : Entry → BitVec 32
  | .exception _ format2 _ _ _ => if format2 then 12 else 8
  | .interrupt _ => 8

/-- The machine in which the handler executes RTE, after the entry with the given machine and status
register. -/
structure Handled (a : Allocation) (entered : Machine × BitVec 32) (m : Machine) : Prop where
  a7 : m.cpu.get regA7 = entered.1.cpu.get regA7
  bank : m.bank = entered.1.bank
  frame : ∀ i < 8, m.cpu.memory (m.cpu.get regA7 + BitVec.ofNat 32 i).toNat =
    entered.1.cpu.memory (m.cpu.get regA7 + BitVec.ofNat 32 i).toNat
  s : (m.sr a).getLsbD 13 = true
  m : (m.sr a).getLsbD 12 = entered.2.getLsbD 12

theorem put_memory (m : Machine) (r : Reg) (x : BitVec 32) :
    (m.put r x).cpu.memory = m.cpu.memory := by
  show (m.cpu.put r x).memory = _
  unfold Cpu.put
  split <;> rfl

theorem get_store (m : Machine) (address : BitVec 32) (n : ℕ) (x : BitVec 32) :
    (m.store address n x).cpu.get r = m.cpu.get r := rfl

/-- What the frame holds. -/
structure Framed (m : Machine) (SR PC type : BitVec 32) : Prop where
  sr : m.load (m.cpu.get regA7) 2 = (SR.setWidth 16).setWidth 32
  pc : m.load (m.cpu.get regA7 + 2) 4 = PC
  type : m.load (m.cpu.get regA7 + 6) 2 = (type.setWidth 16).setWidth 32

theorem load_two (x : BitVec 32) :
    BitVec.ofNat 32 (x.toNat % 256 ^ 2) = (x.setWidth 16).setWidth 32 := by
  apply BitVec.eq_of_toNat_eq
  simp

theorem load_store_same (m : Machine) (address x : BitVec 32) {n : ℕ} (hn : n ≤ 2 ^ 32) :
    (m.store address n x).load address n = BitVec.ofNat 32 (x.toNat % 256 ^ n) :=
  congrArg (BitVec.ofNat 32) (Lib.load_store _ _ _ hn)

theorem load_store_apart (m : Machine) (x : BitVec 32) {address at' : BitVec 32} {n k : ℕ}
    (h : n ≤ (at' - address).toNat) (h' : (at' - address).toNat + k ≤ 2 ^ 32) :
    (m.store address n x).load at' k = m.load at' k :=
  congrArg (BitVec.ofNat 32) (Lib.load_store_of_outside (Lib.outside_of_apart h h'))

/-- The intervals of the frame do not meet. -/
theorem framed_pushFrame (m : Machine) (SR type : BitVec 32) :
    Framed (pushFrame m SR type) SR (m.cpu.get regPC) type := by
  have ha7 : (pushFrame m SR type).cpu.get regA7 = m.cpu.get regA7 - 8 :=
    Machine.get_put m (by decide) _
  have hframe : pushFrame m SR type =
      (((m.put regA7 (m.cpu.get regA7 - 8)).store (m.cpu.get regA7 - 8) 2 SR).store
        (m.cpu.get regA7 - 8 + 2) 4 (m.cpu.get regPC)).store (m.cpu.get regA7 - 8 + 6) 2 type := rfl
  generalize m.cpu.get regA7 - 8 = sp at ha7 hframe
  refine ⟨?_, ?_, ?_⟩
  · rw [ha7, hframe, load_store_apart, load_store_apart, load_store_same _ _ _ (by decide), load_two]
    all_goals bv_omega
  · rw [ha7, hframe, load_store_apart, load_store_same _ _ _ (by decide)]
    · rw [show 256 ^ 4 = 2 ^ 32 by decide, Nat.mod_eq_of_lt (m.cpu.get regPC).isLt,
        BitVec.ofNat_toNat, BitVec.setWidth_eq]
    all_goals bv_omega
  · rw [ha7, hframe, load_store_same _ _ _ (by decide), load_two]

theorem Framed.congr {SR PC type : BitVec 32} (h : Framed m SR PC type)
    (ha7 : m'.cpu.get regA7 = m.cpu.get regA7) (hframe : ∀ i < 8,
      m'.cpu.memory (m.cpu.get regA7 + BitVec.ofNat 32 i).toNat =
        m.cpu.memory (m.cpu.get regA7 + BitVec.ofNat 32 i).toNat) : Framed m' SR PC type := by
  have hload : ∀ k n, k + n ≤ 8 → m'.load (m'.cpu.get regA7 + BitVec.ofNat 32 k) n =
      m.load (m.cpu.get regA7 + BitVec.ofNat 32 k) n := by
    intro k n hk
    rw [ha7]
    refine congrArg (BitVec.ofNat 32) (Lib.load_congr fun i hi ↦ ?_)
    rw [BitVec.add_assoc, ← BitVec.ofNat_add]
    exact hframe (k + i) (by omega)
  have hzero := hload 0 2 (by decide)
  rw [BitVec.add_zero, BitVec.add_zero] at hzero
  exact ⟨hzero.trans h.sr, (hload 2 4 (by decide)).trans h.pc, (hload 6 2 (by decide)).trans h.type⟩

/-- The stack pointer of the supervisor mode that has the same M. -/
def StatusRegister.supervisor (sr : StatusRegister) : Bank := if sr.m then .msp else .isp

theorem testBit_eq {x : BitVec 32} (k : ℕ) (mask : BitVec 32)
    (hmask : ∀ i < 32, mask.getLsbD i = [k].contains i) (hk : k < 32) :
    x &&& mask = 0 ↔ x.getLsbD k = false := by
  have hbits := Branch.and_beq_zero x mask [k] hmask (by simpa using hk)
  rw [← beq_iff_eq, hbits]
  simp

theorem enterSupervisor_stacks {SR : BitVec 32} (hsr : SR.setWidth 16 = sr.host) :
    (enterSupervisor m SR).stacks = m.stacks.switch sr.active sr.supervisor := by
  have hs : SR &&& SR_S = 0 ↔ sr.s = false := by
    rw [testBit_eq 13 _ (by decide) (by decide), getLsbD_of_low hsr (by decide),
      StatusRegister.host_s]
  have hm : SR &&& SR_M = 0 ↔ sr.m = false := by
    rw [testBit_eq 12 _ (by decide) (by decide), getLsbD_of_low hsr (by decide),
      StatusRegister.host_m]
  unfold enterSupervisor
  cases hs' : sr.s with
  | true =>
    have hactive : sr.active = sr.supervisor := if_pos hs'
    rw [if_neg (fun h ↦ by simp [hs.mp h] at hs'), hactive, Stacks.switch_self]
  | false =>
    have hactive : sr.active = .usp := if_neg (by rw [hs']; decide)
    have hne : Bank.usp ≠ sr.supervisor := by
      unfold StatusRegister.supervisor
      split <;> decide
    have hbank : (if SR &&& SR_M ≠ 0 then Function.update m.bank .usp (m.cpu.get regA7) .msp
        else Function.update m.bank .usp (m.cpu.get regA7) .isp) = m.bank sr.supervisor := by
      rw [Function.update_of_ne (by decide), Function.update_of_ne (by decide)]
      unfold StatusRegister.supervisor
      cases hm' : sr.m with
      | true => rw [if_pos (fun h ↦ by simp [hm.mp h] at hm')]; rfl
      | false => rw [if_neg (not_not.mpr (hm.mpr hm'))]; rfl
    rw [if_pos (hs.mpr hs'), hactive, Stacks.switch_of_ne _ hne]
    exact congrArg (Stacks.mk · _) ((Machine.get_put _ (by decide) _).trans hbank)

/-! ### What every entry leaves -/

/-- The stack is switched, the frame is on top of it, and M is as it was. -/
structure Entered (m e : Machine) (SR : BitVec 32) (sr : StatusRegister) (type size handlerSR : BitVec 32) :
    Prop where
  framed : Framed e (exchangeCV SR) (m.cpu.get regPC) type
  a7 : e.cpu.get regA7 + size = (m.stacks.switch sr.active sr.supervisor).a7
  bank : e.bank = (m.stacks.switch sr.active sr.supervisor).bank
  m : handlerSR.getLsbD 12 = sr.m

theorem pushFrame_a7 (m : Machine) (SR type : BitVec 32) :
    (pushFrame m SR type).cpu.get regA7 = m.cpu.get regA7 - 8 :=
  Machine.get_put m (by decide) _

/-- The frame after the stack has been switched and what the format has was pushed. -/
theorem entered_pushFrame {SR type size : BitVec 32} (hsr : SR.setWidth 16 = sr.host) {n : Machine}
    (hbank : n.bank = (enterSupervisor m SR).bank) (hpc : n.cpu.get regPC = m.cpu.get regPC)
    (ha7 : n.cpu.get regA7 - 8 + size = (enterSupervisor m SR).cpu.get regA7) 
    (he : e.cpu.get regA7 = (pushFrame n (exchangeCV SR) type).cpu.get regA7)
    (hmemory : e.cpu.memory = (pushFrame n (exchangeCV SR) type).cpu.memory)
    (hbank' : e.bank = n.bank) {handlerSR : BitVec 32} (hm : handlerSR.getLsbD 12 = SR.getLsbD 12) :
    Entered m e SR sr type size handlerSR where
  framed := by
    have hframed := framed_pushFrame n (exchangeCV SR) type
    rw [hpc] at hframed
    exact hframed.congr he fun i _ ↦ by rw [hmemory]
  a7 := by
    rw [he, pushFrame_a7, ha7, ← enterSupervisor_stacks hsr]
    rfl
  bank := by
    rw [hbank', hbank, ← enterSupervisor_stacks hsr]
    rfl
  m := by rw [hm, getLsbD_of_low hsr (by decide), StatusRegister.host_m]

theorem enterSupervisor_get (m : Machine) (SR : BitVec 32) (hr : r ≠ regA7) :
    (enterSupervisor m SR).cpu.get r = m.cpu.get r := by
  unfold enterSupervisor
  split
  · exact Machine.get_put_of_ne _ hr _
  · rfl

/-- The bits of the format. -/
theorem type_format (format2 : Bool) (vector : BitVec 12) :
    ((if format2 then 0x2000 else 0) ||| vector.setWidth 32) &&& 0xf000 =
      if format2 then (0x2000 : BitVec 32) else 0 := by
  have hlow : vector.setWidth 32 &&& (0xf000 : BitVec 32) = 0 := by
    have hmask : ∀ i < 12, (0xf000 : BitVec 32).getLsbD i = false := by decide
    refine BitVec.eq_of_getLsbD_eq fun i hi ↦ ?_
    rw [BitVec.getLsbD_and, BitVec.getLsbD_setWidth]
    by_cases h : i < 12
    · rw [hmask i h, Bool.and_false]
      simp
    · rw [BitVec.getLsbD_of_ge vector i (by omega)]
      simp
  rw [or_and_right, hlow]
  cases format2 <;> rfl

theorem put_simd (m : Machine) (r : Reg) (x : BitVec 32) : (m.put r x).cpu.simd = m.cpu.simd := by
  show (m.cpu.put r x).simd = _
  unfold Cpu.put
  split <;> rfl

/-- M survives the changes to the status register. -/
theorem handler_m (SR : BitVec 32) : ((SR ||| SR_S) &&& ~~~SR_T).getLsbD 12 = SR.getLsbD 12 := by
  rw [BitVec.getLsbD_and, BitVec.getLsbD_or, show SR_S.getLsbD 12 = false by decide,
    show (~~~SR_T).getLsbD 12 = true by decide, Bool.or_false, Bool.and_true]

theorem handler_level (SR : BitVec 32) (level : BitVec 3) :
    (((SR ||| SR_S) &&& ~~~SR_T &&& ~~~SR_IPL) ||| level.setWidth 32 <<< 8).getLsbD 12 =
      SR.getLsbD 12 := by
  have hlevel : ∀ level : BitVec 3, (level.setWidth 32 <<< 8).getLsbD 12 = false := by decide
  rw [BitVec.getLsbD_or, BitVec.getLsbD_and, handler_m, hlevel,
    show (~~~SR_IPL).getLsbD 12 = true by decide, Bool.and_true, Bool.or_false]

theorem Entry.entered (entry : Entry) (hsr : (entry.hostSR m).setWidth 16 = sr.host) :
    Entered m (entry.enter m).1 (entry.hostSR m) sr entry.type entry.size (entry.enter m).2 := by
  cases entry with
  | exception SR format2 vector ea fault =>
    have htype := type_format format2 vector
    generalize hword : (if format2 then (0x2000 : BitVec 32) else 0) ||| vector.setWidth 32 = type
      at htype
    have hn : ∃ n, pushFormat (enterSupervisor m SR) type ea fault = n ∧
        n.bank = (enterSupervisor m SR).bank ∧ n.cpu.get regPC = m.cpu.get regPC ∧
        n.cpu.get regA7 - 8 + (if format2 then 12 else 8) = (enterSupervisor m SR).cpu.get regA7 := by
      refine ⟨_, rfl, ?_⟩
      have hpc := enterSupervisor_get m SR (show regPC ≠ regA7 by decide)
      cases format2 with
      | true =>
        rw [pushFormat, if_pos (.inl htype)]
        refine ⟨rfl, ?_, ?_⟩
        · rw [get_store, Machine.get_put_of_ne _ (by decide), hpc]
        · rw [get_store, Machine.get_put _ (by decide)]
          show _ - 4 - 8 + 12 = _
          bv_omega
      | false =>
        have hzero : type &&& 0xf000 = 0 := htype
        rw [pushFormat, if_neg (by rw [hzero]; decide), if_neg (by rw [hzero]; decide)]
        exact ⟨rfl, hpc, BitVec.sub_add_cancel _ _⟩
    obtain ⟨n, hpush, hbank, hpc, ha7⟩ := hn
    have henter : (Entry.exception SR format2 vector ea fault).enter m =
        m68kException m SR type ea fault := by rw [← hword]; rfl
    have hsame : Entry.type (.exception SR format2 vector ea fault) = type := hword
    rw [henter, hsame, m68kException, hpush]
    exact entered_pushFrame hsr hbank hpc ha7 (Machine.get_put_of_ne _ (show regA7 ≠ regPC by decide) _)
      (put_memory _ _ _) rfl (handler_m SR)
  | interrupt level =>
    let SR := (Entry.interrupt level).hostSR m
    let p := pushFrame (enterSupervisor m SR) (exchangeCV SR) (Entry.interrupt level).type
    have ha7 : (mainLoopInterrupt m level).cpu.get regA7 = p.cpu.get regA7 := by
      rw [mainLoopInterrupt, Machine.get_put_of_ne _ (by decide)]
      rfl
    have hmemory : (mainLoopInterrupt m level).cpu.memory = p.cpu.memory := by
      rw [mainLoopInterrupt, put_memory]
      rfl
    refine entered_pushFrame (n := enterSupervisor m SR) hsr rfl
      (enterSupervisor_get _ _ (by decide)) (BitVec.sub_add_cancel _ _) ha7 hmemory rfl ?_
    show ((mainLoopInterrupt m level).cpu.simd .sr).getLsbD 12 = _
    rw [mainLoopInterrupt, put_simd]
    exact handler_level _ level

/-! ### The return -/

/-- The lines that take the frame off the stack. -/
def takeLines : List SysOp :=
  [ .ldrhOffsetPostindex regA7 2 2, .insn (.rbit 3 2), .insn (bfxil 2 3 30 2),
    .ldrOffsetPostindex regA7 regPC 6 ]

/-- The lines that take the longword of format 2 off. -/
def formatLines : List SysOp :=
  [.insn (cmpImmed 1 2), .bCc ccNE 2, .insn (.addImmed regA7 regA7 4)]

theorem load_put (m : Machine) (r : Reg) (x address : BitVec 32) (n : ℕ) :
    (m.put r x).load address n = m.load address n := by
  rw [Machine.load, put_memory]
  rfl

theorem run_takeLines {SR PC type : BitVec 32} (hframed : Framed m SR PC type) :
    ∃ m', runForward SysOp.effect 0 takeLines m = (m', 0) ∧
      (m'.cpu.get 2).setWidth 16 = swapCV (SR.setWidth 16) ∧ m'.cpu.get regPC = PC ∧
      m'.cpu.get regA7 = m.cpu.get regA7 + 8 ∧ KeepsRegs m m' [2, 3, regA7, regPC] ∧
      m'.bank = m.bank := by
  let sp := m.cpu.get regA7
  let word := m.load sp 2
  let m₁ := (m.put 2 word).put regA7 (sp + 2)
  let m₂ := m₁.put 3 word.reverse
  let m₃ := m₂.put 2 (A64.insertBits word (word.reverse >>> 30) 0 2)
  let m₄ := (m₃.put regPC (m₃.load (sp + 2) 4)).put regA7 (sp + 2 + 6)
  have hrun : runForward SysOp.effect 0 takeLines m = (m₄, 0) := by
    have h₁ : m₁.cpu.get 2 = word := by
      rw [Machine.get_put_of_ne _ (by decide), Machine.get_put _ (by decide)]
    have h₂ : m₂.cpu.get 2 = word ∧ m₂.cpu.get 3 = word.reverse := by
      rw [Machine.get_put_of_ne _ (by decide), Machine.get_put _ (by decide)]
      exact ⟨h₁, rfl⟩
    have h₃ : m₃.cpu.get regA7 = sp + 2 := by
      rw [Machine.get_put_of_ne _ (by decide), Machine.get_put_of_ne _ (by decide),
        Machine.get_put _ (by decide)]
    have hstep₂ : (SysOp.insn (.rbit 3 2)).effect m₁ = (m₂, 0) := by
      show (m₁.put 3 (m₁.cpu.get 2).reverse, 0) = _
      rw [h₁]
    have hstep₃ : (SysOp.insn (bfxil 2 3 30 2)).effect m₂ = (m₃, 0) := by
      show (m₂.put 2 (A64.insertBits (m₂.cpu.get 2) (m₂.cpu.get 3 >>> 30) 0 2), 0) = _
      rw [h₂.1, h₂.2]
    have hstep₄ : (SysOp.ldrOffsetPostindex regA7 regPC 6).effect m₃ = (m₄, 0) := by
      show ((m₃.put regPC (m₃.load (m₃.cpu.get regA7) 4)).put regA7 (m₃.cpu.get regA7 + 6), 0) = _
      rw [h₃]
    have hstep₁ : (SysOp.ldrhOffsetPostindex regA7 2 2).effect m = (m₁, 0) := rfl
    unfold takeLines
    rw [runForward_step hstep₁, runForward_step hstep₂, runForward_step hstep₃,
      runForward_step hstep₄]
    rfl
  refine ⟨m₄, hrun, ?_, ?_, ?_, ?_, rfl⟩
  · rw [Machine.get_put_of_ne _ (by decide), Machine.get_put_of_ne _ (by decide),
      Machine.get_put _ (by decide), insertReversed]
    show swapCV ((m.load sp 2).setWidth 16) = _
    rw [hframed.sr, BitVec.setWidth_setWidth_of_le _ (by decide), BitVec.setWidth_eq]
  · rw [Machine.get_put_of_ne _ (by decide), Machine.get_put _ (by decide)]
    simp only [m₃, m₂, m₁, load_put]
    exact hframed.pc
  · rw [Machine.get_put _ (by decide), BitVec.add_assoc]
    rfl
  · intro r hr
    simp only [List.mem_cons, List.not_mem_nil, or_false, not_or] at hr
    obtain ⟨hr₂, hr₃, hrA7, hrPC⟩ := hr
    rw [Machine.get_put_of_ne _ hrA7, Machine.get_put_of_ne _ hrPC, Machine.get_put_of_ne _ hr₂,
      Machine.get_put_of_ne _ hr₃, Machine.get_put_of_ne _ hrA7, Machine.get_put_of_ne _ hr₂]

theorem run_formatLines (m : Machine) :
    ∃ m', runForward SysOp.effect 0 formatLines m = (m', 0) ∧
      m'.cpu.get regA7 = m.cpu.get regA7 + (if m.cpu.get 1 = 2 then 4 else 0) ∧
      KeepsRegs m m' [regA7] ∧ m'.bank = m.bank := by
  let m₁ : Machine := { m with cpu := { m.cpu with flags := A64.subFlags (m.cpu.get 1) 2 } }
  have hfirst : (SysOp.insn (cmpImmed 1 2)).effect m = (m₁, 0) := by
    show (({ m with cpu := _ } : Machine), 0) = _
    simp only [A64.step, cmpImmed, put_zero]
    rfl
  have hholds : ccNE.holds m₁.cpu.flags = !(m.cpu.get 1 == 2) := rfl
  unfold formatLines
  rw [runForward_step hfirst, Lib.runForward_cons, SysOp.effect, hholds]
  by_cases h : m.cpu.get 1 = 2
  · refine ⟨m₁.put regA7 (m.cpu.get regA7 + 4), ?_, ?_, ?_, rfl⟩
    · rw [h]
      rfl
    · rw [Machine.get_put _ (by decide), if_pos h]
    · intro r hr
      rw [Machine.get_put_of_ne _ (by simpa using hr)]
      rfl
  · refine ⟨m₁, ?_, ?_, fun r _ ↦ rfl, rfl⟩
    · rw [show (m.cpu.get 1 == 2) = false from beq_false_of_ne h]
      rfl
    · rw [if_neg h]
      exact (BitVec.add_zero (m.cpu.get regA7)).symm

/-- The format of a type, as it is read from the frame. -/
theorem format_of_type (type : BitVec 32) :
    (type.setWidth 16).setWidth 32 >>> 12 = (type &&& 0xf000) >>> 12 := by
  have hmask : ∀ k < 32, (0xf000 : BitVec 32).getLsbD k = decide (12 ≤ k ∧ k < 16) := by decide
  refine BitVec.eq_of_getLsbD_eq fun i hi ↦ ?_
  rw [BitVec.getLsbD_ushiftRight, BitVec.getLsbD_ushiftRight, BitVec.getLsbD_setWidth,
    BitVec.getLsbD_setWidth, BitVec.getLsbD_and]
  by_cases h : 12 + i < 32
  · rw [hmask _ h]
    by_cases h' : 12 + i < 16 <;> simp [h, h']
  · rw [BitVec.getLsbD_of_ge type _ (by omega)]
    simp

theorem Entry.format (entry : Entry) :
    (entry.type.setWidth 16).setWidth 32 >>> 12 = (if entry.size = 12 then 2 else 0 : BitVec 32) := by
  cases entry with
  | exception SR format2 vector ea fault =>
    rw [format_of_type, Entry.type, type_format]
    cases format2 <;> rfl
  | interrupt level =>
    revert level
    decide

theorem Entry.size_eq (entry : Entry) : entry.size = 12 ∨ entry.size = 8 := by
  cases entry with
  | exception SR format2 vector ea fault => cases format2 <;> simp [Entry.size]
  | interrupt level => exact .inr rfl

/-- The lines that look at the format. -/
def checkLines (length : ℕ) : List SysOp :=
  [ .ldrhOffset regA7 1 6, .insn (lsr 1 1 12), .insn (cmpImmed 1 2), .bCc ccEQ (length + 4),
    .insn (cmpImmed 1 0), .bCc ccEQ (length + 2) ]

theorem insertBits_shifted (x : BitVec 32) : A64.insertBits 0 (x >>> 12) 0 20 = x >>> 12 := by
  refine BitVec.eq_of_getLsbD_eq fun i hi ↦ ?_
  rw [A64.insertBits, BitVec.shiftLeft_zero, BitVec.shiftLeft_zero, BitVec.getLsbD_or,
    BitVec.getLsbD_and, BitVec.getLsbD_and, A64.getLsbD_lowMask, BitVec.getLsbD_ushiftRight,
    show (0 : BitVec 32).getLsbD i = false from BitVec.getLsbD_zero, Bool.false_and, Bool.false_or]
  by_cases h : i < 20
  · rw [decide_eq_true ⟨hi, h⟩, Bool.and_true]
  · rw [BitVec.getLsbD_of_ge x _ (by omega), Bool.false_and]

/-- The machine after a comparison of the first register. -/
def compared (m : Machine) (y : BitVec 32) : Machine :=
  { m with cpu := { m.cpu with flags := A64.subFlags (m.cpu.get 1) y } }

theorem effect_cmp (m : Machine) (imm : ℕ) :
    (SysOp.insn (cmpImmed 1 imm)).effect m = (compared m (BitVec.ofNat 32 (imm % 4096)), 0) := by
  show (({ m with cpu := _ } : Machine), 0) = _
  simp only [A64.step, cmpImmed, put_zero]
  rfl

/-- Formats 0 and 2 skip the code of the exception. -/
theorem run_checkLines {format : BitVec 32} (exception code : List SysOp) (jump : SysOp)
    (hload : m.load (m.cpu.get regA7 + 6) 2 >>> 12 = format) (hformat : format = 2 ∨ format = 0) :
    ∃ m', runForward SysOp.effect 0 (checkLines exception.length ++ exception ++ [jump] ++ code) m =
        runForward SysOp.effect 0 code m' ∧
      m'.cpu.get 1 = format ∧ KeepsRegs m m' [1] ∧ m'.bank = m.bank ∧
        m'.cpu.memory = m.cpu.memory := by
  let word := m.load (m.cpu.get regA7 + 6) 2
  let m₁ := (m.put 1 word).put 1 format
  have hshift : (SysOp.insn (lsr 1 1 12)).effect (m.put 1 word) = (m₁, 0) := by
    show ((m.put 1 word).put 1 (A64.insertBits 0 ((m.put 1 word).cpu.get 1 >>> 12) 0 20), 0) = _
    rw [insertBits_shifted, Machine.get_put _ (by decide)]
    exact congrArg (fun x ↦ ((m.put 1 word).put 1 x, 0)) hload
  have hone : m₁.cpu.get 1 = format := Machine.get_put _ (by decide) _
  have hkeeps : KeepsRegs m m₁ [1] := fun r hr ↦ by
    have hne : r ≠ 1 := by simpa using hr
    rw [Machine.get_put_of_ne _ hne, Machine.get_put_of_ne _ hne]
  have hmemory : m₁.cpu.memory = m.cpu.memory := by rw [put_memory, put_memory]
  have htaken : ∀ (m : Machine) (y : BitVec 32) (offset : ℕ), m.cpu.get 1 = y →
      (SysOp.bCc ccEQ offset).effect (compared m y) = (compared m y, offset - 1) := by
    intro m y offset hy
    have hholds : ccEQ.holds (compared m y).cpu.flags = (m.cpu.get 1 == y) := rfl
    rw [SysOp.effect, hholds, hy, beq_self_eq_true]
    rfl
  have hlines : checkLines exception.length ++ exception ++ [jump] ++ code =
      .ldrhOffset regA7 1 6 :: .insn (lsr 1 1 12) :: .insn (cmpImmed 1 2) ::
        .bCc ccEQ (exception.length + 4) :: (([.insn (cmpImmed 1 0),
          .bCc ccEQ (exception.length + 2)] ++ exception ++ [jump]) ++ code) := by
    simp [checkLines]
  have hfirst : (SysOp.ldrhOffset regA7 1 6).effect m = (m.put 1 word, 0) := rfl
  have hcmp₂ : ∀ m, (SysOp.insn (cmpImmed 1 2)).effect m = (compared m 2, 0) :=
    fun m ↦ effect_cmp m 2
  have hcmp₀ : ∀ m, (SysOp.insn (cmpImmed 1 0)).effect m = (compared m 0, 0) :=
    fun m ↦ effect_cmp m 0
  rw [hlines, runForward_step hfirst, runForward_step hshift, runForward_step (hcmp₂ _)]
  rcases hformat with rfl | rfl
  · rw [runForward_step (htaken m₁ _ _ hone), runForward_skip (by simp)]
    exact ⟨_, rfl, hone, hkeeps, rfl, hmemory⟩
  · have hnot : (SysOp.bCc ccEQ (exception.length + 4)).effect (compared m₁ 2) =
        (compared m₁ 2, 0) := by
      have hholds : ccEQ.holds (compared m₁ 2).cpu.flags = (m₁.cpu.get 1 == 2) := rfl
      rw [SysOp.effect, hholds, hone]
      rfl
    rw [runForward_step hnot]
    show ∃ m', runForward SysOp.effect 0 (.insn (cmpImmed 1 0) ::
      .bCc ccEQ (exception.length + 2) :: (exception ++ [jump] ++ code)) _ = _ ∧ _
    rw [runForward_step (hcmp₀ _), runForward_step (htaken (compared m₁ 2) _ _ hone),
      runForward_skip (by simp)]
    exact ⟨_, rfl, hone, hkeeps, rfl, hmemory⟩

/-! ### The round trip -/

/-- The lines that make the new status register. -/
def eorLines (cc : Reg) : List A64.Op := [movReg 3 cc, eorReg 2 2 cc, eorReg cc 2 cc]

theorem emitRTE_eq (a : Allocation) :
    emitRTE a = privileged a
      (checkLines (emitException a.cc VECTOR_FORMAT_ERROR).length ++
        emitException a.cc VECTOR_FORMAT_ERROR ++ [.b 30] ++
        (takeLines ++ (formatLines ++ (insns (eorLines a.cc) ++
          (switchStack 2 3 a.cc ++ maskInterrupts 2 a.cc))))) := rfl

/-- What the three instructions do with the word in the second register. -/
theorem exec_eorLines {cc : Reg} (hcc : 4 ≤ cc) (hcc' : cc ≠ 31) (s : Cpu) :
    (A64.exec (eorLines cc) s).get 3 = s.get cc ∧
      (A64.exec (eorLines cc) s).get 2 = s.get 2 ^^^ s.get cc ∧
      (A64.exec (eorLines cc) s).get cc = s.get 2 ∧
      ∀ r ∉ [2, 3, cc], (A64.exec (eorLines cc) s).get r = s.get r := by
  have h₂ : cc ≠ 2 := (Nat.lt_of_lt_of_le (by decide) hcc).ne'
  have h₃ : cc ≠ 3 := (Nat.lt_of_lt_of_le (by decide) hcc).ne'
  refine ⟨?_, ?_, ?_, fun r hr ↦ ?_⟩
  · simp [eorLines, A64.exec, A64.step, movReg, eorReg, A64.Shift.apply, Cpu.get_put,
      Cpu.get_put_of_ne, Cpu.get_zero, h₃.symm]
  · simp [eorLines, A64.exec, A64.step, movReg, eorReg, A64.Shift.apply, Cpu.get_put,
      Cpu.get_put_of_ne, h₂.symm, h₃]
  · simp [eorLines, A64.exec, A64.step, movReg, eorReg, A64.Shift.apply, Cpu.get_put,
      Cpu.get_put_of_ne, h₂, h₃, hcc']
  · simp only [List.mem_cons, List.not_mem_nil, or_false, not_or] at hr
    simp [eorLines, A64.exec, A64.step, movReg, eorReg, Cpu.get_put_of_ne, hr]

/-- The mode that a word of the host tells. -/
def modeOf (word : BitVec 16) : StatusRegister := .ofWord (swapCV word)

theorem modeOf_s (word : BitVec 16) : (modeOf word).s = word.getLsbD 13 := by
  rw [StatusRegister.s, modeOf, StatusRegister.ofWord, BitVec.getLsbD_and,
    show srImplemented.getLsbD 13 = true by decide, Bool.and_true]
  exact getLsbD_swapCV_of_two_le _ (by decide) (by decide)

theorem modeOf_m (word : BitVec 16) : (modeOf word).m = word.getLsbD 12 := by
  rw [StatusRegister.m, modeOf, StatusRegister.ofWord, BitVec.getLsbD_and,
    show srImplemented.getLsbD 12 = true by decide, Bool.and_true]
  exact getLsbD_swapCV_of_two_le _ (by decide) (by decide)

theorem exchangeCV_low (x : BitVec 32) :
    (exchangeCV x).setWidth 16 = swapCV (x.setWidth 16) := by
  rw [exchangeCV_eq (by decide)]
  refine BitVec.eq_of_getLsbD_eq fun i hi ↦ ?_
  rw [BitVec.getLsbD_setWidth, getLsbD_swapCV _ hi, getLsbD_swapCV x (by omega),
    BitVec.getLsbD_setWidth, decide_eq_true hi, Bool.true_and]
  split
  · rfl
  · split <;> simp [hi]

theorem ready_memory (a : Allocation) (m : Machine) : (ready a m).cpu.memory = m.cpu.memory := by
  have hflush : ∀ s : Cpu, (A64.exec (Branch.flushPC a.pcRel) s).memory = s.memory := by
    intro s
    unfold Branch.flushPC
    split
    · rfl
    split <;> rfl
  rw [ready, A64.exec_append, hflush]
  cases a.ccLoaded with
  | true => rfl
  | false => exact put_memory m a.cc (m.cpu.simd .sr)

/-- SR with C and V in their places is in the frame, and RTE brings back the status register, the
program counter and A7, and with it all three stack pointers. -/
structure Restored (a : Allocation) (m handler after : Machine) (sr : StatusRegister) : Prop where
  stacked : handler.load (handler.cpu.get regA7) 2 = sr.word.setWidth 32
  host : (after.cpu.get a.cc).setWidth 16 = sr.host
  pc : after.cpu.get regPC = m.cpu.get regPC
  a7 : after.cpu.get regA7 = m.cpu.get regA7
  pointers : after.stacks.pointer sr.active = m.stacks.pointer sr.active

/-- What RTE does for a frame with format 0 or 2, up to the switch. -/
theorem run_rte {SR PC type : BitVec 32} (hframed : Framed m SR PC type)
    (hs : (m.sr a).getLsbD 13 = true)
    (hformat : (type.setWidth 16).setWidth 32 >>> 12 = 2 ∨
      (type.setWidth 16).setWidth 32 >>> 12 = 0) :
    ∃ m', exec (emitRTE a) m =
        (runForward SysOp.effect 0 (switchStack 2 3 a.cc ++ maskInterrupts 2 a.cc) m').1 ∧
      (m'.cpu.get 3).setWidth 16 = m.sr a ∧
      (m'.cpu.get 2).setWidth 16 = m.sr a ^^^ swapCV (SR.setWidth 16) ∧
      (m'.cpu.get a.cc).setWidth 16 = swapCV (SR.setWidth 16) ∧ m'.cpu.get regPC = PC ∧
      m'.cpu.get regA7 = m.cpu.get regA7 + 8 +
        (if (type.setWidth 16).setWidth 32 >>> 12 = 2 then 4 else 0) ∧
      m'.bank = m.bank := by
  have hcc : 4 ≤ a.cc := a.lower _ (by simp)
  have hfixed : a.cc ≠ 1 ∧ a.cc ≠ 2 ∧ a.cc ≠ 3 ∧ a.cc ≠ regA7 ∧ a.cc ≠ regPC ∧ a.cc ≠ 31 := by
    refine ⟨?_, ?_, ?_, ?_, ?_, ?_⟩ <;> exact a.ne_fixed (by simp) (by decide)
  obtain ⟨hne₁, hne₂, hne₃, hneA7, hnePC, hne31⟩ := hfixed
  have hready : (ready a m).cpu.get regA7 = m.cpu.get regA7 :=
    ready_get a m hneA7.symm (by decide)
  have hframed₀ : Framed (ready a m) SR PC type :=
    hframed.congr hready fun i _ ↦ by rw [ready_memory]
  have hload : (ready a m).load ((ready a m).cpu.get regA7 + 6) 2 >>> 12 =
      (type.setWidth 16).setWidth 32 >>> 12 := by rw [hframed₀.type]
  obtain ⟨m₁, hrun₁, hone₁, hkeeps₁, hbank₁, hmemory₁⟩ :=
    run_checkLines (emitException a.cc VECTOR_FORMAT_ERROR)
      (takeLines ++ (formatLines ++ (insns (eorLines a.cc) ++
        (switchStack 2 3 a.cc ++ maskInterrupts 2 a.cc)))) (.b 30) hload hformat
  have hA7₁ := hkeeps₁ regA7 (by decide)
  have hframed₁ := hframed₀.congr hA7₁ fun i _ ↦ by rw [hmemory₁]
  obtain ⟨m₂, hrun₂, hword₂, hpc₂, ha7₂, hkeeps₂, hbank₂⟩ := run_takeLines hframed₁
  obtain ⟨m₃, hrun₃, ha7₃, hkeeps₃, hbank₃⟩ := run_formatLines m₂
  obtain ⟨hthree, htwo, hcc₄, hkeeps₄⟩ := exec_eorLines hcc hne31 m₃.cpu
  have hone₂ : m₂.cpu.get 1 = _ := (hkeeps₂ 1 (by decide)).trans hone₁
  have hcc₃ : (m₃.cpu.get a.cc).setWidth 16 = m.sr a := by
    rw [hkeeps₃ a.cc (by simpa using hneA7), hkeeps₂ a.cc (by simp [hne₂, hne₃, hneA7, hnePC]),
      hkeeps₁ a.cc (by simpa using hne₁), ready_cc]
  have hword₃ : (m₃.cpu.get 2).setWidth 16 = swapCV (SR.setWidth 16) := by
    rw [hkeeps₃ 2 (by decide), hword₂]
  refine ⟨{ m₃ with cpu := A64.exec (eorLines a.cc) m₃.cpu }, ?_, ?_, ?_, ?_, ?_, ?_, ?_⟩
  · rw [emitRTE_eq, exec, run_privileged _ hs, hrun₁, runForward_piece hrun₂,
      runForward_piece hrun₃, runForward_piece (run_insns _ _)]
  · exact (congrArg _ hthree).trans hcc₃
  · refine (congrArg _ htwo).trans ?_
    rw [BitVec.setWidth_xor, hword₃, hcc₃, BitVec.xor_comm]
  · exact (congrArg _ hcc₄).trans hword₃
  · refine (hkeeps₄ regPC (by simp [hnePC.symm]; decide)).trans ?_
    rw [hkeeps₃ regPC (by decide), hpc₂]
  · refine (hkeeps₄ regA7 (by simp [hneA7.symm]; decide)).trans ?_
    rw [ha7₃, ha7₂, hA7₁, hready, hone₂]
  · exact hbank₃.trans (hbank₂.trans hbank₁)

/-- Whatever the mode was, and for every exception or interrupt: RTE in the handler restores the
state before the entry. -/
theorem restored_rte (entry : Entry) {handler : Machine}
    (hsr : (entry.hostSR m).setWidth 16 = sr.host) (h : Handled a (entry.enter m) handler) :
    Restored a m handler (exec (emitRTE a) handler) sr := by
  have hentered := entry.entered hsr
  have hword : (exchangeCV (entry.hostSR m)).setWidth 16 = sr.word := by
    rw [exchangeCV_low, hsr, StatusRegister.host, swapCV_swapCV (by decide)]
  have hframed : Framed handler (exchangeCV (entry.hostSR m)) (m.cpu.get regPC) entry.type :=
    hentered.framed.congr h.a7 fun i hi ↦ by rw [← h.a7]; exact h.frame i hi
  have hformat := entry.format
  obtain ⟨m₁, hrun, horig, hchanged, hcc, hpc, ha7, hbank⟩ :=
    run_rte hframed h.s (by rw [hformat]; split <;> simp)
  rw [hword] at hchanged hcc
  let old := modeOf (handler.sr a)
  have hold_s : old.s = true := (modeOf_s _).trans h.s
  have hold_m : old.m = sr.m := (modeOf_m _).trans (h.m.trans hentered.m)
  have hactive : old.active = sr.supervisor := (if_pos hold_s).trans (by rw [hold_m]; rfl)
  have htells : Tells m₁ 2 3 a.cc old sr := by
    refine ⟨?_, ?_, ?_, ?_⟩
    · rw [getLsbD_of_low horig (by decide), ← modeOf_m]
    · rw [getLsbD_of_low hcc (by decide)]
      exact sr.host_m
    · rw [getLsbD_of_low hchanged (by decide), BitVec.getLsbD_xor, ← modeOf_s]
      exact congrArg (_ ^^ ·) sr.host_s
    · rw [getLsbD_of_low hchanged (by decide), BitVec.getLsbD_xor, ← modeOf_m]
      exact congrArg (_ ^^ ·) sr.host_m
  have hbase : m₁.stacks = m.stacks.switch sr.active sr.supervisor := by
    have hsize : handler.cpu.get regA7 + 8 + (if (entry.type.setWidth 16).setWidth 32 >>> 12 =
        (2 : BitVec 32) then 4 else 0) = handler.cpu.get regA7 + entry.size := by
      rw [hformat]
      rcases entry.size_eq with hsize | hsize <;> rw [hsize] <;> simp [BitVec.add_assoc]
    rw [hsize, h.a7, hentered.a7] at ha7
    rw [Machine.stacks, ha7, hbank, h.bank, hentered.bank]
  obtain ⟨m₂, hrun₂, hstacks₂, hkeeps₂⟩ := run_switchStack htells hold_s
  obtain ⟨m₃, hrun₃, hstacks₃, hkeeps₃⟩ := run_maskInterrupts m₂ 2 a.cc (by decide)
  rw [runForward_piece hrun₂, hrun₃] at hrun
  have hkeeps : ∀ r ∉ [2, regA7], m₃.cpu.get r = m₁.cpu.get r := by
    intro r hr
    simp only [List.mem_cons, List.not_mem_nil, or_false, not_or] at hr
    rw [hkeeps₃ r (by simpa using hr.1), hkeeps₂ r (by simpa using hr.2)]
  have hpointers : m₃.stacks.pointer sr.active = m.stacks.pointer sr.active := by
    rw [hstacks₃, hstacks₂, Stacks.pointer_switch, hbase, hactive, Stacks.pointer_switch]
  rw [hrun]
  refine ⟨?_, ?_, ?_, ?_, hpointers⟩
  · rw [hframed.sr, hword]
  · have hcc₀ : a.cc ≠ 2 ∧ a.cc ≠ regA7 := by
      refine ⟨?_, ?_⟩ <;> exact a.ne_fixed (by simp) (by decide)
    rw [hkeeps a.cc (by simp [hcc₀]), hcc]
    rfl
  · rw [hkeeps regPC (by decide), hpc]
  · have hself := congrFun hpointers sr.active
    rwa [Stacks.pointer, Stacks.pointer, if_pos rfl, if_pos rfl] at hself

/-- An interrupt of level 3 that comes in user mode, and a handler that is RTE alone. -/
theorem restored_rte_interrupt :
    Restored { someAllocation with ccLoaded := false } interruptMode (mainLoopInterrupt interruptMode 3)
      (exec (emitRTE { someAllocation with ccLoaded := false }) (mainLoopInterrupt interruptMode 3))
      (.ofWord 0) :=
  restored_rte (.interrupt 3) (by decide +kernel)
    ⟨rfl, rfl, fun _ _ ↦ rfl, by decide +kernel, by decide +kernel⟩

end Emu68.Supervisor

import Emu68.Lib.Transition
import Emu68.Ppc.CodeEffects
import Emu68.Ppc.Exceptions

/-!
What the ways into an exception agree on, and where they differ. All of them save the program
counter and the machine state so that `rfi` restores them. The interrupt entry clears the machine
state except for two bits, and selects the vectors with one of them. The emitted code clears
the problem state only, and always takes the high vectors.
-/

set_option autoImplicit false
set_option relaxedAutoImplicit false

namespace Emu68.Ppc

open A64 (Reg Cpu bicImmed bitmask)

variable {m : Machine} {rel : PcRel} {type : BitVec 16} {tmp : Fin 12} {k : Interrupt}

/-! ### What the emitted code does -/

theorem ctxExec_append (first second : List CtxOp) (m : Machine) :
    ctxExec (first ++ second) m = ctxExec second (ctxExec first m) :=
  List.foldl_append

/-- Code does not touch the requests. -/
theorem ctxExec_flag (code : List CtxOp) (m : Machine) (k : Interrupt) :
    (ctxExec code m).ctx.flag k = m.ctx.flag k := by
  induction code generalizing m with
  | nil => rfl
  | cons op rest ih =>
    refine (ih (ctxStep m op)).trans ?_
    cases op with
    | insn op => rfl
    | ldr rt field => rfl
    | str rt field => cases field <;> cases k <;> rfl

theorem flushPC_spec (m : Machine) {rel : ℤ} (hrel : rel.natAbs < 4096) :
    (ctxExec (flushPC rel) m).ctx = m.ctx ∧
      (ctxExec (flushPC rel) m).PC = m.PC + BitVec.ofInt 32 rel := by
  unfold flushPC
  split
  case isTrue hpos =>
    refine ⟨rfl, ?_⟩
    show (m.cpu.put regPC (m.cpu.get regPC + _)).get regPC = _
    rw [Cpu.get_put _ (by decide), ofNat_mod_small hrel, ofInt_of_nonneg hpos.le]
    rfl
  case isFalse hpos =>
    split
    case isTrue hneg =>
      refine ⟨rfl, ?_⟩
      show (m.cpu.put regPC (m.cpu.get regPC - _)).get regPC = _
      rw [Cpu.get_put _ (by decide), ofNat_mod_small hrel, ofInt_of_neg hneg,
        BitVec.sub_eq_add_neg]
      rfl
    case isFalse hneg =>
      obtain rfl : rel = 0 := by omega
      exact ⟨rfl, (BitVec.add_zero _).symm⟩

theorem advancePC_spec (m : Machine) (rel : PcRel) :
    (ctxExec ((advancePC rel 4).1 ++ flushPC (advancePC rel 4).2.val) m).ctx = m.ctx ∧
      (ctxExec ((advancePC rel 4).1 ++ flushPC (advancePC rel 4).2.val) m).PC =
        m.PC + BitVec.ofInt 32 (rel.val + 4) := by
  have hsmall : (rel.val + 4).natAbs < 4096 := by
    have := rel.small
    omega
  have hspec := flushPC_spec m hsmall
  unfold advancePC
  split
  · rwa [← List.append_nil (flushPC (rel.val + 4))] at hspec
  · exact hspec

/-- The state in which the emitted code leaves the context. -/
def saved (m : Machine) (returnPC : Word) : PPCState :=
  { m.ctx with SRR0 := returnPC, SRR1 := m.ctx.MSR, MSR := m.ctx.MSR &&& ~~~MSR_PR }

theorem bitmask_PR : bitmask (32 - 1) (18 - 1) = ~~~MSR_PR := by decide +kernel

theorem bitmask_POW : bitmask (32 - 1) (14 - 1) = ~~~MSR_POW := by decide +kernel

/-- The constant that `mov` and `movk` build. -/
theorem highVector (type : BitVec 16) :
    A64.insertBits (type.zeroExtend 32 <<< (16 * 0)) ((0xfff0 : BitVec 16).zeroExtend 32) (16 * 1) 16 =
      0xfff00000 ||| type.setWidth 32 := by
  have hmask : ~~~(A64.lowMask 16 <<< (16 * 1)) = 0xffff := by decide
  have hhigh : ((0xfff0 : BitVec 16).zeroExtend 32 &&& A64.lowMask 16) <<< (16 * 1) = 0xfff00000 := by
    decide
  have hlow : type.setWidth 32 &&& (0xffff : Word) = type.setWidth 32 := by
    apply BitVec.eq_of_toNat_eq
    rw [BitVec.toNat_and]
    show _ &&& (2 ^ 16 - 1) = _
    rw [Nat.and_two_pow_sub_one_eq_mod, BitVec.toNat_setWidth]
    omega
  rw [A64.insertBits, hmask, hhigh, Nat.mul_zero, BitVec.shiftLeft_zero, BitVec.or_comm]
  exact congrArg (0xfff00000 ||| ·) hlow

theorem exceptionCode_spec (m : Machine) (rel : PcRel) (type : BitVec 16) (tmp : Fin 12) :
    (ctxExec (exceptionCode rel type tmp) m).ctx = saved m (m.PC + BitVec.ofInt 32 rel.val) ∧
      (ctxExec (exceptionCode rel type tmp) m).PC = 0xfff00000 ||| type.setWidth 32 := by
  obtain ⟨hctx, hPC⟩ := flushPC_spec m (rel.small.trans_lt (by decide))
  rw [exceptionCode, ctxExec_append, saved, ← hctx, ← hPC]
  generalize ctxExec (flushPC rel.val) m = m
  have hpc : regPC ≠ (tmp : Reg) := (tmp_ne_pc tmp).symm
  have hzero := tmp_ne_zero tmp
  constructor
  · simp only [ctxExec, List.foldl_cons, List.foldl_nil, ctxStep, PPCState.load, PPCState.store,
      A64.step, bicImmed, bitmask_PR, Cpu.get_put _ hzero, Cpu.get_put_of_ne _ hpc]
    rfl
  · simp only [ctxExec, List.foldl_cons, List.foldl_nil, ctxStep, Machine.PC, A64.step,
      Cpu.get_put _ (show regPC ≠ 31 by decide), highVector]

theorem scCode_spec (m : Machine) (rel : PcRel) (tmp : Fin 12) :
    (ctxExec (scCode rel tmp) m).ctx = saved m (m.PC + BitVec.ofInt 32 (rel.val + 4)) ∧
      (ctxExec (scCode rel tmp) m).PC = 0xfff00c00 := by
  obtain ⟨hctx, hPC⟩ := advancePC_spec m rel
  rw [scCode, ctxExec_append, saved, ← hctx, ← hPC]
  generalize ctxExec ((advancePC rel 4).1 ++ flushPC (advancePC rel 4).2.val) m = m
  have hpc : regPC ≠ (tmp : Reg) := (tmp_ne_pc tmp).symm
  have hzero := tmp_ne_zero tmp
  constructor
  · simp only [ctxExec, List.foldl_cons, List.foldl_nil, ctxStep, PPCState.load, PPCState.store,
      A64.step, bicImmed, bitmask_PR, Cpu.get_put _ hzero, Cpu.get_put_of_ne _ hpc,
      Cpu.get_put_of_ne _ (tmp_ne_pc tmp)]
    rfl
  · simp only [ctxExec, List.foldl_cons, List.foldl_nil, ctxStep, Machine.PC, A64.step,
      Cpu.get_put _ (show regPC ≠ 31 by decide)]
    decide

/-- `rfi` in supervisor mode. -/
theorem rfi_spec (m : Machine) (hPR : m.ctx.MSR.getLsbD 14 = false) :
    (act m (.rfi tmp)).ctx = { m.ctx with MSR := m.ctx.SRR1 &&& ~~~MSR_POW } ∧
      (act m (.rfi tmp)).PC = wordAligned m.ctx.SRR0 := by
  have hact : act m (.rfi tmp) = ctxExec (rfiCode tmp) m := by
    show supervised _ _ _ = _
    rw [supervised, hPR, if_neg Bool.false_ne_true]
  have hzero := tmp_ne_zero tmp
  have hpc : regPC ≠ 31 := by decide
  rw [hact]
  constructor
  · simp only [rfiCode, ctxExec, List.foldl_cons, List.foldl_nil, ctxStep, PPCState.load,
      PPCState.store, A64.step, bicImmed, bitmask_POW, Cpu.get_put _ hzero]
  · simp only [rfiCode, ctxExec, List.foldl_cons, List.foldl_nil, ctxStep, PPCState.load,
      PPCState.store, A64.step, bicImmed, bitmask_bic, Machine.PC, Cpu.get_put _ hpc, wordAligned]

/-! ### What the main loop does -/

def vectorOf : Interrupt → Word
  | .ext => 0x500
  | .dec => 0x900

/-- The base of the vectors. -/
def vectorBase (MSR : Word) : Word := if MSR &&& MSR_IP ≠ 0 then 0xfff00000 else 0

/-- Either nothing is accepted, or an enabled interrupt is and its request is taken back. -/
theorem pendingVector_cases (s : PPCState) : pendingVector s = (0, s) ∨
    ∃ k, s.flag k ≠ 0 ∧ s.MSR &&& MSR_EE ≠ 0 ∧ pendingVector s = (vectorOf k, s.setFlag 0 k) := by
  unfold pendingVector
  split
  · exact .inl rfl
  · by_cases hee : s.MSR &&& MSR_EE ≠ 0
    · simp only [if_pos hee]
      by_cases hext : s.EXT ≠ 0
      · exact .inr ⟨.ext, hext, hee, by rw [if_pos hext]; rfl⟩
      · rw [if_neg hext]
        by_cases hdec : s.DEC ≠ 0
        · exact .inr ⟨.dec, hdec, hee, by rw [if_pos hdec]; rfl⟩
        · exact .inl (by rw [if_neg hdec]; rfl)
    · simp only [if_neg hee, ite_self]
      exact .inl rfl

theorem accepted_some (hvector : pendingVector m.ctx = (vectorOf k, m.ctx.setFlag 0 k)) :
    accepted m = some k := by
  rw [accepted, hvector]
  cases k <;> rfl

/-- Without an interrupt to accept, the loop changes nothing. -/
theorem check_none (h : accepted m = none) : act m .check = m := by
  rcases pendingVector_cases m.ctx with hvector | ⟨k, -, -, hvector⟩
  · show checkInterrupts m = m
    rw [checkInterrupts, hvector]
    rfl
  · rw [accepted_some hvector] at h
    cases h

/-- The interrupt that is accepted was requested and is enabled; its request is taken back. -/
theorem check_some (h : accepted m = some k) :
    m.ctx.flag k ≠ 0 ∧ m.ctx.MSR &&& MSR_EE ≠ 0 ∧
      (act m .check).PC = vectorBase m.ctx.MSR ||| vectorOf k ∧
      (act m .check).ctx = { m.ctx.setFlag 0 k with
        SRR0 := m.PC, SRR1 := m.ctx.MSR, MSR := m.ctx.MSR &&& (MSR_IP ||| MSR_ILE) } := by
  rcases pendingVector_cases m.ctx with hvector | ⟨k', hflag, hee, hvector⟩
  · rw [accepted, hvector] at h
    cases h
  obtain rfl : k' = k := Option.some.inj ((accepted_some hvector).symm.trans h)
  have hMSR : (m.ctx.setFlag 0 k').MSR = m.ctx.MSR := by cases k' <;> rfl
  have hne : vectorOf k' ≠ 0 := by cases k' <;> decide
  have hcheck : act m .check = checkInterrupts m := rfl
  rw [hcheck, checkInterrupts, hvector]
  simp only [if_neg hne, hMSR]
  refine ⟨hflag, hee, ?_, trivial⟩
  show (m.cpu.put regPC _).get regPC = _
  rw [Cpu.get_put _ (by decide), vectorBase]
  split
  · exact BitVec.or_comm _ _
  · exact (BitVec.zero_or).symm

/-! ### Requests -/

/-- One if there is a request. -/
def waiting (k : Interrupt) (m : Machine) : ℕ := if m.ctx.flag k = 0 then 0 else 1

/-- One if the action makes a request where there is none. -/
def raised (k : Interrupt) (m : Machine) : Action → ℕ
  | .raise interrupt _ _ => if interrupt = k then 1 - waiting k m else 0
  | _ => 0

/-- One if the action accepts the interrupt. -/
def taken (k : Interrupt) (m : Machine) : Action → ℕ
  | .check => if accepted m = some k then 1 else 0
  | _ => 0

def actAll (m : Machine) (actions : List Action) : Machine := actions.foldl act m

/-- A count along a run. -/
def total (count : Machine → Action → ℕ) : Machine → List Action → ℕ
  | _, [] => 0
  | m, a :: rest => count m a + total count (act m a) rest

/-- Code behind the supervisor check, or the exception, does not touch the requests. -/
theorem supervised_flag (code : List CtxOp) (tmp : Fin 12) (m : Machine) (k : Interrupt) :
    (supervised code tmp m).ctx.flag k = m.ctx.flag k := by
  unfold supervised
  split
  · exact ctxExec_flag _ m k
  · exact ctxExec_flag _ m k

theorem setFlag_flag (s : PPCState) (value : BitVec 8) (k k' : Interrupt) :
    (s.setFlag value k').flag k = if k' = k then value else s.flag k := by
  cases k <;> cases k' <;> rfl

/-- Every request is there or was accepted, and none is accepted twice. -/
theorem requests_step (k : Interrupt) (m : Machine) (a : Action) :
    waiting k m + raised k m a = taken k m a + waiting k (act m a) := by
  have hkept {m' : Machine} (h : m'.ctx.flag k = m.ctx.flag k) :
      waiting k m + 0 = 0 + waiting k m' := by
    rw [waiting, waiting, h, Nat.add_zero, Nat.zero_add]
  cases a with
  | other cpu SRR0 SRR1 => exact hkept (by cases k <;> rfl)
  | mtmsr rs tmp => exact hkept (supervised_flag _ tmp m k)
  | rfi tmp => exact hkept (supervised_flag _ tmp m k)
  | exception rel type tmp => exact hkept (ctxExec_flag _ m k)
  | sc rel tmp => exact hkept (ctxExec_flag _ m k)
  | raise interrupt value value_ne =>
    have hflag : (act m (.raise interrupt value value_ne)).ctx.flag k =
        if interrupt = k then value else m.ctx.flag k := setFlag_flag _ _ _ _
    by_cases hsame : interrupt = k
    · rw [if_pos hsame] at hflag
      show waiting k m + (if interrupt = k then 1 - waiting k m else 0) = 0 + waiting k (act m _)
      rw [if_pos hsame, waiting, waiting, hflag, if_neg value_ne]
      split <;> rfl
    · rw [if_neg hsame] at hflag
      show waiting k m + (if interrupt = k then 1 - waiting k m else 0) = 0 + waiting k (act m _)
      rw [if_neg hsame]
      exact hkept hflag
  | check =>
    show waiting k m + 0 = (if accepted m = some k then 1 else 0) + waiting k (act m .check)
    cases haccepted : accepted m with
    | none =>
      rw [check_none haccepted]
      exact hkept rfl
    | some k' =>
      obtain ⟨hflag, -, -, hctx⟩ := check_some haccepted
      have hafter : (act m .check).ctx.flag k = (m.ctx.setFlag 0 k').flag k := by
        rw [hctx]
        cases k <;> rfl
      rw [setFlag_flag] at hafter
      by_cases hsame : k' = k
      · rw [if_pos hsame] at hafter
        rw [if_pos (congrArg some hsame), waiting, waiting, hafter, if_pos rfl,
          if_neg (hsame ▸ hflag)]
      · rw [if_neg hsame] at hafter
        rw [if_neg fun h ↦ hsame (Option.some.inj h)]
        exact hkept hafter

/-- The balance of the requests along a run. -/
theorem requests_run (k : Interrupt) (m : Machine) (actions : List Action) :
    waiting k m + total (raised k) m actions =
      total (taken k) m actions + waiting k (actAll m actions) := by
  induction actions generalizing m with
  | nil => exact Nat.add_comm _ _
  | cons a rest ih =>
    have hstep := requests_step k m a
    have hrest := ih (act m a)
    show waiting k m + (raised k m a + total (raised k) (act m a) rest) =
      taken k m a + total (taken k) (act m a) rest + waiting k (actAll (act m a) rest)
    omega

/-! ### Handlers -/

/-- The actions before the handler's own `mtmsr` or `rfi`. -/
def InHandler (_ : Machine) : Action → Prop
  | .mtmsr _ _ | .rfi _ => False
  | _ => True

/-- Up to there the state is reached from the entry. -/
def Handler : Machine → Machine → Prop := Lib.Reachable (fun m a ↦ some (act m a)) InHandler

/-- An interrupt that is disabled is not accepted. -/
theorem accepted_disabled (h : m.ctx.MSR &&& MSR_EE = 0) : accepted m = none := by
  cases haccepted : accepted m with
  | none => rfl
  | some k => exact absurd h (check_some haccepted).2.1

theorem and_EE_of_and {x y : Word} (h : x &&& MSR_EE = 0) : (x &&& y) &&& MSR_EE = 0 := by
  rw [BitVec.and_assoc, BitVec.and_comm y, ← BitVec.and_assoc, h]
  exact BitVec.zero_and

/-- Without `mtmsr` and `rfi`, interrupts stay disabled. -/
theorem disabled_step (h : m.ctx.MSR &&& MSR_EE = 0) (a : Action) (ha : InHandler m a) :
    (act m a).ctx.MSR &&& MSR_EE = 0 := by
  cases a with
  | other cpu SRR0 SRR1 => exact h
  | mtmsr rs tmp => exact ha.elim
  | rfi tmp => exact ha.elim
  | exception rel type tmp =>
    show (ctxExec (exceptionCode rel type tmp) m).ctx.MSR &&& MSR_EE = 0
    rw [(exceptionCode_spec m rel type tmp).1]
    exact and_EE_of_and h
  | sc rel tmp =>
    show (ctxExec (scCode rel tmp) m).ctx.MSR &&& MSR_EE = 0
    rw [(scCode_spec m rel tmp).1]
    exact and_EE_of_and h
  | raise interrupt value value_ne =>
    cases interrupt
    · exact h
    · exact h
  | check => rwa [check_none (accepted_disabled h)]

theorem disabled_handler {m' : Machine} (h : m.ctx.MSR &&& MSR_EE = 0) (hrun : Handler m m') :
    m'.ctx.MSR &&& MSR_EE = 0 := by
  refine Lib.Reachable.invariant (fun m ↦ m.ctx.MSR &&& MSR_EE = 0) h ?_ hrun
  intro m a m' hm ha hact
  cases hact
  exact disabled_step hm a ha

/-! ### The ways into an exception -/

/-- The entry paths: `emitException`, `sc` and the interrupts of the main loop. -/
inductive Entry where
  | exception (rel : PcRel) (type : BitVec 16) (tmp : Fin 12)
  | sc (rel : PcRel) (tmp : Fin 12)
  | interrupt

namespace Entry

def action : Entry → Action
  | .exception rel type tmp => .exception rel type tmp
  | .sc rel tmp => .sc rel tmp
  | .interrupt => .check

/-- The main loop enters an exception if it accepts an interrupt. -/
def Taken (m : Machine) : Entry → Prop
  | .interrupt => accepted m ≠ none
  | _ => True

/-- A trap returns to itself, `sc` behind itself. -/
def returnPC (m : Machine) : Entry → Word
  | .exception rel _ _ => m.PC + BitVec.ofInt 32 rel.val
  | .sc rel _ => m.PC + BitVec.ofInt 32 (rel.val + 4)
  | .interrupt => m.PC

def vector (m : Machine) : Entry → Word
  | .exception _ type _ => type.setWidth 32
  | .sc _ _ => 0xc00
  | .interrupt => ((accepted m).map vectorOf).getD 0

/-- What the architecture asks of an entry into an exception. -/
structure Agrees (e : Entry) (m : Machine) : Prop where
  SRR0 : (act m e.action).ctx.SRR0 = e.returnPC m
  SRR1 : (act m e.action).ctx.SRR1 = m.ctx.MSR
  MSR : (act m e.action).ctx.MSR = m.ctx.MSR &&& (MSR_IP ||| MSR_ILE)
  PC : (act m e.action).PC = vectorBase m.ctx.MSR ||| e.vector m
  rfi_PC : ∀ tmp, (act (act m e.action) (.rfi tmp)).PC = wordAligned (e.returnPC m)
  rfi_MSR : ∀ tmp, (act (act m e.action) (.rfi tmp)).ctx.MSR = m.ctx.MSR &&& ~~~MSR_POW
  quiet : ∀ m', Handler (act m e.action) m' → accepted m' = none
  requests : ∀ k actions, waiting k m + total (raised k) m (e.action :: actions) =
    total (taken k) m (e.action :: actions) + waiting k (actAll m (e.action :: actions))

/-- The bits that emitted code leaves in the machine state are none but those two, and it selects
the high vectors. -/
def MSRFits (m : Machine) : Entry → Prop
  | .interrupt => True
  | _ => m.ctx.MSR &&& ~~~(MSR_IP ||| MSR_ILE ||| MSR_PR) = 0 ∧ m.ctx.MSR &&& MSR_IP ≠ 0

variable {e : Entry}

/-- The rest of what is asked follows from the four values. -/
theorem Agrees.of_values (hSRR0 : (act m e.action).ctx.SRR0 = e.returnPC m)
    (hSRR1 : (act m e.action).ctx.SRR1 = m.ctx.MSR)
    (hMSR : (act m e.action).ctx.MSR = m.ctx.MSR &&& (MSR_IP ||| MSR_ILE))
    (hPC : (act m e.action).PC = vectorBase m.ctx.MSR ||| e.vector m) : e.Agrees m := by
  have hPR : (act m e.action).ctx.MSR.getLsbD 14 = false := by
    rw [hMSR, BitVec.getLsbD_and, show (MSR_IP ||| MSR_ILE).getLsbD 14 = false from rfl,
      Bool.and_false]
  have hEE : (act m e.action).ctx.MSR &&& MSR_EE = 0 := by
    rw [hMSR, BitVec.and_assoc, show (MSR_IP ||| MSR_ILE) &&& MSR_EE = 0 by decide]
    exact BitVec.and_zero
  exact {
    SRR0 := hSRR0
    SRR1 := hSRR1
    MSR := hMSR
    PC := hPC
    rfi_PC := fun tmp ↦ by rw [(rfi_spec _ hPR).2, hSRR0]
    rfi_MSR := fun tmp ↦ by rw [(rfi_spec _ hPR).1, hSRR1]
    quiet := fun m' hrun ↦ accepted_disabled (disabled_handler hEE hrun)
    requests := fun k actions ↦ requests_run k m _ }

/-- What clearing the problem state leaves: the two bits, and all others but itself. -/
theorem and_not_PR (x : Word) : x &&& ~~~MSR_PR =
    (x &&& (MSR_IP ||| MSR_ILE)) ||| (x &&& ~~~(MSR_IP ||| MSR_ILE ||| MSR_PR)) := by
  rw [← BitVec.and_or_distrib_left]
  congr 1

theorem and_not_PR_iff (x : Word) : x &&& ~~~MSR_PR = x &&& (MSR_IP ||| MSR_ILE) ↔
    x &&& ~~~(MSR_IP ||| MSR_ILE ||| MSR_PR) = 0 := by
  constructor
  · intro h
    calc x &&& ~~~(MSR_IP ||| MSR_ILE ||| MSR_PR)
        = (x &&& ~~~MSR_PR) &&& ~~~(MSR_IP ||| MSR_ILE) := by
          rw [BitVec.and_assoc]
          congr 1
      _ = (x &&& (MSR_IP ||| MSR_ILE)) &&& ~~~(MSR_IP ||| MSR_ILE) := by rw [h]
      _ = 0 := by
        rw [BitVec.and_assoc, show (MSR_IP ||| MSR_ILE) &&& ~~~(MSR_IP ||| MSR_ILE) = 0 by decide]
        exact BitVec.and_zero
  · intro h
    rw [and_not_PR, h]
    exact BitVec.or_zero

/-- The emitted code always goes to the high vectors. -/
theorem highVector_iff {x vector : Word} (hvector : vector.getLsbD 31 = false) :
    (0xfff00000 ||| vector) = (vectorBase x ||| vector) ↔ x &&& MSR_IP ≠ 0 := by
  unfold vectorBase
  constructor
  · intro h hIP
    rw [if_neg (not_not.mpr hIP)] at h
    have hbit := congrArg (BitVec.getLsbD · 31) h
    simp only [BitVec.getLsbD_or, hvector, Bool.or_false] at hbit
    exact absurd hbit (by decide)
  · intro hIP
    rw [if_pos hIP]

theorem agrees_emitted (hctx : (act m e.action).ctx = saved m (e.returnPC m))
    (hPC : (act m e.action).PC = 0xfff00000 ||| e.vector m)
    (hvector : (e.vector m).getLsbD 31 = false) :
    e.Agrees m ↔
      m.ctx.MSR &&& ~~~(MSR_IP ||| MSR_ILE ||| MSR_PR) = 0 ∧ m.ctx.MSR &&& MSR_IP ≠ 0 := by
  have hMSR : (act m e.action).ctx.MSR = m.ctx.MSR &&& ~~~MSR_PR := by
    rw [hctx]
    rfl
  constructor
  · intro h
    exact ⟨(and_not_PR_iff _).mp (hMSR.symm.trans h.MSR),
      (highVector_iff hvector).mp (hPC.symm.trans h.PC)⟩
  · rintro ⟨hfew, hIP⟩
    refine .of_values (by rw [hctx]; rfl) (by rw [hctx]; rfl) ?_ ?_
    · exact hMSR.trans ((and_not_PR_iff _).mpr hfew)
    · exact hPC.trans ((highVector_iff hvector).mpr hIP)

/-- The interrupt entry always agrees, the emitted code on machine states that it fits. -/
theorem agrees_iff (htaken : e.Taken m) : e.Agrees m ↔ e.MSRFits m := by
  cases e with
  | exception rel type tmp =>
    have hvector : (type.setWidth 32).getLsbD 31 = false := by
      rw [BitVec.getLsbD_setWidth, BitVec.getLsbD_of_ge _ _ (by decide), Bool.and_false]
    obtain ⟨hctx, hPC⟩ := exceptionCode_spec m rel type tmp
    exact agrees_emitted hctx hPC hvector
  | sc rel tmp =>
    obtain ⟨hctx, hPC⟩ := scCode_spec m rel tmp
    have hbase : (0xfff00c00 : Word) = 0xfff00000 ||| 0xc00 := by decide
    have hvector : (0xc00 : Word).getLsbD 31 = false := by decide
    exact agrees_emitted hctx (hPC.trans hbase) hvector
  | interrupt =>
    obtain ⟨k, haccepted⟩ := Option.ne_none_iff_exists'.mp htaken
    obtain ⟨-, -, hPC, hctx⟩ := check_some haccepted
    have hvector : vector m .interrupt = vectorOf k := by rw [vector, haccepted]; rfl
    refine iff_of_true (.of_values ?_ ?_ ?_ ?_) trivial
    · exact congrArg PPCState.SRR0 hctx
    · exact congrArg PPCState.SRR1 hctx
    · exact congrArg PPCState.MSR hctx
    · rw [hvector]
      exact hPC

/-- A machine with the given machine state and no requests. -/
def idle (MSR : Word) : Machine where
  cpu := ⟨fun _ ↦ 0x1000, ⟨false, false, false, false⟩, fun _ ↦ 0, fun _ ↦ 0⟩
  ctx := ⟨MSR, 0, 0, 0, 0, 0⟩

def programException : Entry := .exception .zero 0x700 firstRegs.tmp

/-- In problem state, with no other bit set but the one for the vectors. -/
theorem agrees_iff_program : programException.Taken (idle (MSR_IP ||| MSR_PR)) ∧
    programException.Agrees (idle (MSR_IP ||| MSR_PR)) := by
  have htaken : programException.Taken (idle (MSR_IP ||| MSR_PR)) := trivial
  exact ⟨htaken, (agrees_iff htaken).mpr ⟨by decide, by decide⟩⟩

/-- With interrupts enabled, `sc` leaves them enabled. -/
theorem not_agrees_sc : ¬ ∀ (m : Machine) (e : Entry), e.Taken m → e.Agrees m := by
  intro hall
  have hagrees := hall (idle (MSR_IP ||| MSR_EE)) (.sc .zero 0) trivial
  have hMSR := (scCode_spec (idle (MSR_IP ||| MSR_EE)) .zero 0).1
  have hkept := (congrArg PPCState.MSR hMSR).symm.trans hagrees.MSR
  exact absurd hkept (by decide)

end Entry

end Emu68.Ppc

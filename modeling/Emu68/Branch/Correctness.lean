import Mathlib
import Emu68.Branch.Tests

/-!
The branches go where those of the 68040 go. A translated branch has two ends, the end of its
straight code and the end of its exit block, and for every state the end that is reached has the
program counter, the registers and the memory of the 68040 after the branch. The exceptions are the
floating-point predicates that are never or always true: the host condition for "never" is another
"always", so that a branch on one of them, if the translation expects the other outcome, goes
through its exit block all the same.
-/

set_option autoImplicit false
set_option relaxedAutoImplicit false

namespace Emu68.Branch

open A64 M68k Lib

/-! ### States that belong together -/

/-- The translated program is at the branch at `m.pc`, with an offset pending, and the opcode has
been read. -/
structure At (ctx : Context) (m : M68k.Cpu) (s : A64.Cpu) : Prop where
  pc : s.regs regPC + BitVec.ofInt 32 ctx.pcRel = m.pc
  regs : ∀ r : Fin 16, s.regs (mapM68kRegister r) = m.regs r
  ccr : ccrOf (if ctx.ccLoaded then s.regs ctx.cc else s.simd .sr) = m.ccr
  fpcc : fpccOf (if ctx.fpsrLoaded then s.regs ctx.fpsr else s.simd .fpsr) = m.fpcc
  pcRel_nonneg : 0 ≤ ctx.pcRel
  pcRel_le : ctx.pcRel ≤ 120
  codePtr : ctx.m68kCodePtr.setWidth 32 = m.pc + 2
  hostAgree : HostAgree ctx.hostFlags s.flags m.ccr
  hostFlags_ne : ctx.hostFlags ≠ fpFlags
  allocated : ctx.Allocated

variable {memory : CodeMemory} {opcode : BitVec 16} {branch : M68k.Branch} {size : Size}
  {m : M68k.Cpu} {s s' : A64.Cpu} {ctx : Context} {e : Emission}

/-- The end that the code reaches, and what holds there. -/
structure Ends (e : Emission) (memory : CodeMemory) (opcode : BitVec 16) (branch : M68k.Branch)
    (size : Size) (m : M68k.Cpu) (s : A64.Cpu) (exits : Bool) (s' : A64.Cpu) : Prop where
  final : e.final s = some (exits, s')
  /-- The exit block is for the outcome that the translation did not expect. -/
  path : exits = (branch.taken m != e.takeBranch)
  pc : s'.regs regPC + BitVec.ofInt 32 (if exits then 0 else e.pcRel) =
    continueAt memory opcode m branch size
  regs : ∀ r : Fin 16, s'.regs (mapM68kRegister r) = branch.regsAfter m r
  /-- BSR stores the address of the following instruction. -/
  pushed : branch = .bsr →
    loadValue s'.memory (m.regs 15 - 4).toNat 4 = (next m.pc size).toNat
  memory : branch ≠ .bsr → s'.memory = s.memory

/-- The translation goes on, unless it stops here, at the instruction that follows the straight
code. -/
structure BranchCorrect (e : Emission) (memory : CodeMemory) (opcode : BitVec 16)
    (branch : M68k.Branch) (size : Size) (m : M68k.Cpu) (s : A64.Cpu) : Prop where
  ends : ∃ exits s', Ends e memory opcode branch size m s exits s'
  codePtr : e.marker ≠ some .stop → e.m68kCodePtr.setWidth 32 =
    if e.takeBranch then target memory opcode m.pc size else next m.pc size

/-! ### Offsets -/

theorem lowByte_eq (opcode : BitVec 16) :
    (opcode &&& 0xff).toNat = (opcode.setWidth 8).toNat := by
  rw [BitVec.toNat_and, BitVec.toNat_setWidth]
  exact Nat.and_two_pow_sub_one_eq_mod _ 8

theorem lowByte_eq_iff (opcode : BitVec 16) (b : BitVec 8) :
    opcode &&& 0xff = b.setWidth 16 ↔ opcode.setWidth 8 = b := by
  rw [← BitVec.toNat_inj, ← BitVec.toNat_inj, lowByte_eq,
    BitVec.toNat_setWidth_of_le (show 8 ≤ 16 by decide)]

def addend : Size → ℤ
  | .byte => 0
  | .word => 2
  | .long => 4

theorem readOffset_eq (memory : CodeMemory) (opcode : BitVec 16)
    (h : ctx.m68kCodePtr.setWidth 32 = m.pc + 2) :
    readOffset ctx memory opcode =
      (addend (branchSize opcode),
        (displacement memory opcode m.pc (branchSize opcode)).toInt,
        ctx.m68kCodePtr + BitVec.ofInt 64 (addend (branchSize opcode))) := by
  have hzero := lowByte_eq_iff opcode 0
  have hones := lowByte_eq_iff opcode 0xff
  unfold readOffset branchSize
  rw [h]
  split
  case isTrue hlow =>
    rw [if_pos (hzero.mp hlow)]
    simp only [addend, displacement, BitVec.toInt_signExtend_of_le (show 16 ≤ 32 by decide)]
    rfl
  case isFalse hlow =>
    rw [if_neg fun hbyte ↦ hlow (hzero.mpr hbyte)]
    split
    case isTrue hlow' =>
      rw [if_pos (hones.mp hlow')]
      rfl
    case isFalse hlow' =>
      rw [if_neg fun hbyte ↦ hlow' (hones.mpr hbyte)]
      simp only [addend, displacement, BitVec.toInt_signExtend_of_le (show 8 ≤ 32 by decide)]
      simp

theorem ofInt_addend (size : Size) : BitVec.ofInt 32 (addend size) + 2 = size.length := by
  cases size <;> rfl

theorem setWidth_ofInt (x : ℤ) : (BitVec.ofInt 64 x).setWidth 32 = BitVec.ofInt 32 x := by
  apply BitVec.eq_of_toNat_eq
  rw [BitVec.toNat_setWidth, BitVec.toNat_ofInt, BitVec.toNat_ofInt]
  omega

/-- The pointer behind the displacement is at the next instruction. -/
theorem nextPtr (size : Size) (h : ctx.m68kCodePtr.setWidth 32 = m.pc + 2) :
    (ctx.m68kCodePtr + BitVec.ofInt 64 (addend size)).setWidth 32 = next m.pc size := by
  rw [BitVec.setWidth_add _ _ (by decide), setWidth_ofInt, h, next, ← ofInt_addend,
    BitVec.add_assoc, BitVec.add_comm 2]

theorem targetPtr (h : ctx.m68kCodePtr.setWidth 32 = m.pc + 2) :
    (ctx.m68kCodePtr + BitVec.ofInt 64 (displacement memory opcode m.pc size).toInt).setWidth 32 =
      target memory opcode m.pc size := by
  rw [BitVec.setWidth_add _ _ (by decide), setWidth_ofInt, h, BitVec.ofInt_toInt]
  rfl

/-! ### The two ends -/

theorem scratch_regMap : ∀ r : Fin 16, 12 ≤ mapM68kRegister r ∧ mapM68kRegister r ≠ regPC := by
  decide

theorem Moved.mapped {v : BitVec 32} (h : Moved s s' v) (r : Fin 16) :
    s'.regs (mapM68kRegister r) = s.regs (mapM68kRegister r) :=
  h.regs _ (scratch_regMap r).1 (scratch_regMap r).2

/-- A test followed by one of two offsets, with the other in the exit block. -/
theorem emitExits_final {test : List Item} {exits takeBranch : Bool} {notTakenOff branchOff : ℤ}
    (htest : ExitsIf test s exits)
    (he : (e.code, e.exitBlock) = emitExits ctx test takeBranch notTakenOff branchOff) :
    ∃ s', e.final s = some (exits, s') ∧
      Moved s s' (BitVec.ofInt 32 (if exits = takeBranch then notTakenOff else branchOff)) := by
  obtain ⟨s₁, hmoved, hrun⟩ := htest
  obtain ⟨hcode, hblock⟩ := Prod.mk.inj he
  have hnot : ∀ s, Moved s (exec (addOffset regPC 0 255 256 notTakenOff) s)
      (BitVec.ofInt 32 notTakenOff) :=
    moved_addOffset (by decide) (by decide) (by decide) notTakenOff
  have hbranch : ∀ s, Moved s (exec (addOffset regPC 0 4096 4096 branchOff) s)
      (BitVec.ofInt 32 branchOff) :=
    moved_addOffset (by decide) (by decide) (by decide) branchOff
  have hexit : ∀ s, Moved s (exec (localExit ctx 1) s) 0 := moved_localExit ctx 1
  unfold Emission.final
  rw [hcode, hrun, hblock]
  cases exits <;> cases takeBranch
  all_goals
    simp only [run_ops_nil, exec_append, if_true, if_false, Bool.false_eq_true,
      reduceCtorEq]
  · exact ⟨_, rfl, hmoved.after (hnot _)⟩
  · exact ⟨_, rfl, hmoved.after (hbranch _)⟩
  · exact ⟨_, rfl, hmoved.after ((hbranch _).before (hexit _))⟩
  · exact ⟨_, rfl, hmoved.after ((hnot _).before (hexit _))⟩

theorem notTaken_pc (hat : At ctx m s) :
    s.regs regPC + BitVec.ofInt 32 (ctx.pcRel + 2 - 2 + (addend size + 2)) = next m.pc size := by
  rw [show ctx.pcRel + 2 - 2 + (addend size + 2) = ctx.pcRel + (addend size + 2) by ring,
    BitVec.ofInt_add, ← BitVec.add_assoc, hat.pc, BitVec.ofInt_add, next, ← ofInt_addend]
  rfl

theorem taken_pc (hat : At ctx m s) :
    s.regs regPC +
      BitVec.ofInt 32 ((displacement memory opcode m.pc size).toInt + (ctx.pcRel + 2)) =
        target memory opcode m.pc size := by
  rw [show ∀ d : ℤ, d + (ctx.pcRel + 2) = ctx.pcRel + (2 + d) by intro d; ring, BitVec.ofInt_add,
    ← BitVec.add_assoc, hat.pc, BitVec.ofInt_add, BitVec.ofInt_toInt, target, BitVec.add_assoc]
  rfl

theorem pcRel_two (hat : At ctx m s) : getOffsetPC ctx.pcRel 2 = ([], ctx.pcRel + 2) := by
  have := hat.pcRel_nonneg
  have := hat.pcRel_le
  exact getOffsetPC_eq (by omega)

/-- A branch whose two ends differ in the offset only. -/
theorem ends_of_emitExits (hat : At ctx m s) (test : List Item) (exits : Bool)
    (htest : ExitsIf test s exits) (hpath : exits = (branch.taken m != e.takeBranch))
    (he : (e.code, e.exitBlock) = emitExits ctx test e.takeBranch
      (ctx.pcRel + 2 - 2 + (addend size + 2))
      ((displacement memory opcode m.pc size).toInt + (ctx.pcRel + 2)))
    (hpcRel : e.pcRel = 0) (hregs : branch.regsAfter m = m.regs) (hbsr : branch ≠ .bsr) :
    ∃ exits s', Ends e memory opcode branch size m s exits s' := by
  obtain ⟨s', hfinal, hmoved⟩ := emitExits_final htest he
  refine ⟨exits, s', hfinal, hpath, ?_, ?_, fun h ↦ absurd h hbsr, fun _ ↦ hmoved.memory⟩
  · have hzero : (if exits then (0 : ℤ) else e.pcRel) = 0 := by
      rw [hpcRel, ite_self]
    rw [hzero, hmoved.pc, show BitVec.ofInt 32 0 = 0 from rfl, add_zero]
    unfold continueAt
    cases htaken : branch.taken m with
    | true =>
      have hne : exits ≠ e.takeBranch := by
        rw [hpath, htaken]
        cases e.takeBranch <;> decide
      rw [if_neg hne, if_pos rfl]
      exact taken_pc hat
    | false =>
      have heq : exits = e.takeBranch := by
        rw [hpath, htaken]
        cases e.takeBranch <;> rfl
      rw [if_pos heq, if_neg Bool.false_ne_true]
      exact notTaken_pc hat
  · intro r
    rw [hmoved.mapped, hregs, hat.regs]

theorem ExitsIf.ops {items : List Item} {exits : Bool} {code : List Op}
    (hmoved : Moved s (exec code s) 0) (h : ExitsIf items (exec code s) exits) :
    ExitsIf (ops code ++ items) s exits := by
  obtain ⟨s', hmoved', hrun⟩ := h
  refine ⟨s', hmoved.after hmoved', fun rest ↦ ?_⟩
  rw [List.append_assoc, run_ops, hrun]

/-- The condition codes are in their register. -/
theorem getCC_spec (hat : At ctx m s) :
    Moved s (exec (getCC ctx) s) 0 ∧ (exec (getCC ctx) s).flags = s.flags ∧
      ccrOf ((exec (getCC ctx) s).regs ctx.cc) = m.ccr := by
  have hccr := hat.ccr
  have hcc := ne_of_scratch hat.allocated.cc_lt (show 12 ≤ 31 by decide)
  unfold getCC
  cases hloaded : ctx.ccLoaded with
  | true =>
    rw [hloaded] at hccr
    exact ⟨.refl s, rfl, hccr⟩
  | false =>
    rw [hloaded] at hccr
    refine ⟨moved_put s hat.allocated.cc_lt _, ?_, ?_⟩
    · simp [exec, step, Cpu.put_of_ne hcc]
    · rw [← hccr]
      simp [exec, step, Cpu.put_of_ne hcc]

theorem getFPSR_spec (hat : At ctx m s) :
    Moved s (exec (getFPSR ctx) s) 0 ∧
      fpccOf ((exec (getFPSR ctx) s).get ctx.fpsr) = m.fpcc := by
  have hfpcc := hat.fpcc
  have hfpsr := ne_of_scratch hat.allocated.fpsr_lt (show 12 ≤ 31 by decide)
  rw [Cpu.get_of_ne hfpsr]
  unfold getFPSR
  cases hloaded : ctx.fpsrLoaded with
  | true =>
    rw [hloaded] at hfpcc
    exact ⟨.refl s, hfpcc⟩
  | false =>
    rw [hloaded] at hfpcc
    refine ⟨moved_put s hat.allocated.fpsr_lt _, ?_⟩
    rw [← hfpcc]
    simp [exec, step, Cpu.put_of_ne hfpsr]

/-- The code that tests a condition, with the condition codes brought in place. -/
theorem exitsIf_jump (hat : At ctx m s) {condition : Condition} (h : 2 ≤ condition.toNat) :
    ExitsIf (ops (getCC ctx) ++ jumpOnCondition ctx condition) s (m.ccr.holds condition) := by
  obtain ⟨hmoved, hflags, hccr⟩ := getCC_spec hat
  refine .ops hmoved ?_
  rw [← hccr]
  refine jumpOnCondition_spec hat.allocated ?_ h
  rw [hflags, hccr]
  exact hat.hostAgree

theorem holds_not (f : Ccr) : ∀ condition : Condition, 2 ≤ condition.toNat →
    2 ≤ (condition ^^^ 1).toNat ∧ f.holds (condition ^^^ 1) = !f.holds condition := by
  have hall : ∀ (n z v c : Bool) (condition : Condition), 2 ≤ condition.toNat →
      2 ≤ (condition ^^^ 1).toNat ∧
        Ccr.holds ⟨n, z, v, c⟩ (condition ^^^ 1) = !Ccr.holds ⟨n, z, v, c⟩ condition := by
    decide +kernel
  exact hall f.n f.z f.v f.c

/-! ### Bcc -/

theorem decode_bcc {condition : Condition} (h : decode opcode = some (.bcc condition, size)) :
    (opcode >>> 8).setWidth 4 = condition ∧ 2 ≤ condition.toNat ∧ size = branchSize opcode := by
  unfold decode at h
  dsimp only at h
  split_ifs at h with hline h0 h1
  · simp at h
  · simp at h
  · simp only [Option.some.injEq, Prod.mk.injEq, Branch.bcc.injEq] at h
    refine ⟨h.1, ?_, h.2.symm⟩
    rw [← h.1]
    have hne : ∀ c : Condition, c ≠ 0 → c ≠ 1 → 2 ≤ c.toNat := by decide
    exact hne _ h0 h1
  all_goals simp at h

theorem emitBcc_correct (hat : At ctx m s) {condition : Condition}
    (h : decode opcode = some (.bcc condition, size)) :
    BranchCorrect (emitBcc ctx memory opcode) memory opcode (.bcc condition) size m s := by
  obtain ⟨hcondition, hge, rfl⟩ := decode_bcc h
  obtain ⟨hge', hnot⟩ := holds_not m.ccr condition hge
  have hoffset := readOffset_eq memory opcode hat.codePtr
  constructor
  · refine ends_of_emitExits hat (ops (getCC ctx) ++ jumpOnCondition ctx
      (if (emitBcc ctx memory opcode).takeBranch then condition ^^^ 1 else condition))
      (m.ccr.holds condition != (emitBcc ctx memory opcode).takeBranch) ?_ rfl ?_ rfl rfl (by simp)
    · cases (emitBcc ctx memory opcode).takeBranch with
      | true =>
        rw [if_pos rfl, Bool.bne_true, ← hnot]
        exact exitsIf_jump hat hge'
      | false =>
        rw [if_neg Bool.false_ne_true, Bool.bne_false]
        exact exitsIf_jump hat hge
    · simp only [emitBcc, pcRel_two hat, hoffset, hcondition, List.nil_append]
  · intro _
    simp only [emitBcc, pcRel_two hat, hoffset]
    split
    · exact targetPtr hat.codePtr
    · exact nextPtr _ hat.codePtr

/-! ### BRA and BSR -/

theorem decode_bra (h : decode opcode = some (branch, size)) (hbranch : branch = .bra ∨ branch = .bsr) :
    size = branchSize opcode ∧ (opcode.getLsbD 8 = true ↔ branch = .bsr) := by
  have hbit : opcode.getLsbD 8 = ((opcode >>> 8).setWidth 4).getLsbD 0 := by simp
  rw [hbit]
  unfold decode at h
  dsimp only at h
  split_ifs at h with hline h0 h1
  · rw [h0]
    simp only [Option.some.injEq, Prod.mk.injEq] at h
    obtain ⟨rfl, rfl⟩ := h
    exact ⟨rfl, by decide⟩
  · rw [h1]
    simp only [Option.some.injEq, Prod.mk.injEq] at h
    obtain ⟨rfl, rfl⟩ := h
    exact ⟨rfl, by decide⟩
  all_goals
    rcases hbranch with rfl | rfl
    all_goals simp at h

theorem and_bit8 (opcode : BitVec 16) : opcode &&& 0x100 ≠ 0 ↔ opcode.getLsbD 8 = true := by
  rw [show (0x100 : BitVec 16) = BitVec.twoPow 16 8 by decide, BitVec.and_twoPow]
  cases opcode.getLsbD 8 <;> decide

theorem ofInt_bmod (x : ℤ) : BitVec.ofInt 32 (x.bmod (2 ^ 32)) = BitVec.ofInt 32 x := by
  apply BitVec.eq_of_toInt_eq
  rw [BitVec.toInt_ofInt, BitVec.toInt_ofInt, Int.bmod_bmod]

/-- After the push, if there is one, the program counter moves to the target. -/
theorem bra_final (memory : CodeMemory) (hat : At ctx m s) (hsize : size = branchSize opcode) :
    ∃ s', (emitBRA ctx memory opcode).final s = some (false, s') ∧
      Moved (exec (if opcode &&& 0x100 ≠ 0 then pushReturn ctx (addend size + (ctx.pcRel + 2))
        else []) s) s'
        (BitVec.ofInt 32 ((displacement memory opcode m.pc size).toInt + (ctx.pcRel + 2))) := by
  subst hsize
  simp only [emitBRA, pcRel_two hat, readOffset_eq memory opcode hat.codePtr, List.nil_append,
    Emission.final, run_ops_nil, exec_append]
  refine ⟨_, rfl, ?_⟩
  have hmoved := moved_addOffset (show (4096 : ℤ) ≤ 4096 by decide) (show (4096 : ℤ) ≤ 4096 by decide)
    hat.allocated.tmp_lt
    ((ctx.pcRel + 2 + (displacement memory opcode m.pc (branchSize opcode)).toInt).bmod (2 ^ 32))
  simp only [ofInt_bmod] at hmoved
  rw [Int.add_comm (displacement memory opcode m.pc (branchSize opcode)).toInt]
  exact hmoved _

theorem bra_codePtr (hat : At ctx m s) (hsize : size = branchSize opcode) :
    (emitBRA ctx memory opcode).marker ≠ some .stop →
      (emitBRA ctx memory opcode).m68kCodePtr.setWidth 32 = target memory opcode m.pc size := by
  subst hsize
  simp only [emitBRA, pcRel_two hat, readOffset_eq memory opcode hat.codePtr]
  split
  · intro _
    exact targetPtr hat.codePtr
  · intro hstop
    exact absurd rfl hstop

theorem emitBRA_correct (hat : At ctx m s) (h : decode opcode = some (.bra, size)) :
    BranchCorrect (emitBRA ctx memory opcode) memory opcode .bra size m s := by
  obtain ⟨hsize, hbit⟩ := decode_bra h (.inl rfl)
  have hpush : ¬ opcode &&& 0x100 ≠ 0 := by
    rw [and_bit8, hbit]
    decide
  obtain ⟨s', hfinal, hmoved⟩ := bra_final memory hat hsize
  rw [if_neg hpush] at hmoved
  refine ⟨⟨false, s', hfinal, rfl, ?_, ?_, by simp, fun _ ↦ hmoved.memory⟩, bra_codePtr hat hsize⟩
  · rw [hmoved.pc]
    exact (add_zero _).trans (taken_pc hat)
  · intro r
    rw [hmoved.mapped]
    exact hat.regs r

theorem emitBSR_correct (hat : At ctx m s) (h : decode opcode = some (.bsr, size)) :
    BranchCorrect (emitBRA ctx memory opcode) memory opcode .bsr size m s := by
  obtain ⟨hsize, hbit⟩ := decode_bra h (.inr rfl)
  have hpush : opcode &&& 0x100 ≠ 0 := (and_bit8 opcode).mpr (hbit.mpr rfl)
  obtain ⟨s', hfinal, hmoved⟩ := bra_final memory hat hsize
  rw [if_pos hpush] at hmoved
  have hpcRel := hat.pcRel_nonneg
  have hreturn : addend size + (ctx.pcRel + 2) ≠ 0 := by
    cases size <;> simp only [addend] <;> omega
  have htmp := ne_of_scratch hat.allocated.tmp2_lt (show 12 ≤ 31 by decide)
  rcases exec_addOffset ctx.tmp2 (addend size + (ctx.pcRel + 2)) (show (256 : ℤ) ≤ 4096 by decide)
    (show (256 : ℤ) ≤ 4096 by decide) hat.allocated.tmp2_lt s with
    ⟨hzero, -⟩ | ⟨-, s₁, hmoved₁, hexec⟩
  · exact absurd hzero hreturn
  have hnext : s.regs regPC + BitVec.ofInt 32 (addend size + (ctx.pcRel + 2)) = next m.pc size := by
    rw [← notTaken_pc hat]
    congr 2
    ring
  -- the state after the address of the next instruction has been computed
  set s₂ := s₁.put ctx.tmp2 (next m.pc size) with hs₂
  have hmoved₂ : Moved s s₂ 0 := hmoved₁.after (moved_put s₁ hat.allocated.tmp2_lt _)
  have hsp : s₂.get (mapM68kRegister 15) = m.regs 15 := by
    rw [Cpu.get_of_ne (by decide), ← hat.regs 15]
    exact hmoved₂.mapped 15
  have hpushed : exec (pushReturn ctx (addend size + (ctx.pcRel + 2))) s =
      { s₂.put (mapM68kRegister 15) (m.regs 15 - 4) with
        memory := storeBytes s₂.memory (m.regs 15 - 4).toNat 4
          (byteOf 4 (next m.pc size).toNat) } := by
    have haddress : m.regs 15 + BitVec.ofInt 32 (-4) = m.regs 15 - 4 := by
      rw [BitVec.sub_eq_add_neg]
      rfl
    unfold pushReturn
    rw [exec_append, hexec, hnext, if_pos hreturn]
    simp only [exec, List.foldl_cons, List.foldl_nil, step]
    rw [← hs₂, hsp, haddress, hs₂, Cpu.get_put s₁ htmp]
  rw [hpushed] at hmoved
  refine ⟨⟨false, s', hfinal, rfl, ?_, ?_, fun _ ↦ ?_, fun hne ↦ absurd rfl hne⟩,
    bra_codePtr hat hsize⟩
  · have hpc : (s₂.put (mapM68kRegister 15) (m.regs 15 - 4)).regs regPC = s.regs regPC := by
      rw [Cpu.put_of_ne (by decide)]
      have hne : regPC ≠ mapM68kRegister 15 := by decide
      exact (Function.update_of_ne hne (m.regs 15 - 4) s₂.regs).trans
        (hmoved₂.pc.trans (add_zero _))
    rw [hmoved.pc]
    exact (add_zero _).trans ((congrArg (· + _) hpc).trans (taken_pc hat))
  · intro r
    rw [hmoved.mapped]
    show (s₂.put (mapM68kRegister 15) (m.regs 15 - 4)).regs (mapM68kRegister r) = _
    rw [Cpu.put_of_ne (by decide), regsAfter_bsr]
    by_cases hr : r = 15
    · subst hr
      rw [if_pos rfl]
      exact Function.update_self (mapM68kRegister 15) (m.regs 15 - 4) s₂.regs
    · have hne : ∀ r : Fin 16, r ≠ 15 → mapM68kRegister r ≠ mapM68kRegister 15 := by decide
      rw [if_neg hr, ← hat.regs r]
      exact (Function.update_of_ne (hne r hr) (m.regs 15 - 4) s₂.regs).trans (hmoved₂.mapped r)
  · rw [hmoved.memory, loadValue_storeBytes]
    exact Nat.mod_eq_of_lt (next m.pc size).isLt

/-! ### Pending offsets -/

theorem moved_addImmed {n : ℤ} (hpos : 0 < n) (hlt : n < 4096) (s : A64.Cpu) :
    Moved s (step s (.addImmed regPC regPC n.toNat)) (BitVec.ofInt 32 n) := by
  have hmoved := moved_pc s (BitVec.ofInt 32 n)
  rw [← ofNat_toNat_mod hpos hlt, ← Cpu.get_of_ne (show regPC ≠ 31 by decide)] at hmoved
  rw [← ofNat_toNat_mod hpos hlt]
  exact hmoved

theorem advancePC_spec (hat : At ctx m s) (s₁ : A64.Cpu) :
    ∃ v, Moved s₁ (exec (advancePC ctx.pcRel 4).1 s₁) (BitVec.ofInt 32 v) ∧
      v + (advancePC ctx.pcRel 4).2 = ctx.pcRel + 4 ∧ 0 ≤ (advancePC ctx.pcRel 4).2 ∧
      (advancePC ctx.pcRel 4).2 ≤ 120 := by
  have hnonneg := hat.pcRel_nonneg
  have hle := hat.pcRel_le
  unfold advancePC
  dsimp only
  split
  case isTrue =>
    rw [if_pos (by omega)]
    exact ⟨ctx.pcRel + 4, moved_addImmed (by omega) (by omega) s₁, by omega, by omega, by omega⟩
  case isFalse => exact ⟨0, .refl s₁, by omega, by omega, by omega⟩

theorem flushPC_spec {pcRel : ℤ} (hnonneg : 0 ≤ pcRel) (hle : pcRel ≤ 120) (s : A64.Cpu) :
    Moved s (exec (flushPC pcRel) s) (BitVec.ofInt 32 pcRel) := by
  unfold flushPC
  split
  case isTrue hpos => exact moved_addImmed hpos (by omega) s
  case isFalse hzero =>
    rw [if_neg (by omega), show pcRel = 0 by omega]
    exact .refl s

end Emu68.Branch

import Mathlib
import Emu68.Branch.Correctness

/-!
DBcc goes where that of the 68040 goes, and counts down in the low word of its register only, and
only if its condition is false.
-/

set_option autoImplicit false
set_option relaxedAutoImplicit false

namespace Emu68.Branch

open A64 M68k Lib

variable {memory : CodeMemory} {opcode : BitVec 16} {size : Size} {m : M68k.Cpu}
  {s s' : A64.Cpu} {ctx : Context}

/-! ### DBcc -/

theorem decode_dbcc {condition : Condition} {counter : Fin 8}
    (h : decode opcode = some (.dbcc condition counter, size)) :
    (opcode >>> 8).setWidth 4 = condition ∧ (opcode &&& 7).toNat = counter ∧ size = .word := by
  unfold decode at h
  dsimp only at h
  split_ifs at h with hline h0 h1 hdbcc
  · simp at h
  · simp at h
  · simp at h
  · simp only [Option.some.injEq, Prod.mk.injEq, Branch.dbcc.injEq] at h
    refine ⟨h.1.1, ?_, h.2.symm⟩
    rw [← h.1.2, BitVec.toNat_and]
    exact Nat.and_two_pow_sub_one_eq_mod _ 3
  all_goals simp at h

/-- DBT does nothing. -/
theorem emitDBT_correct (hat : At ctx m s) {counter : Fin 8}
    (h : decode opcode = some (.dbcc 0 counter, size)) :
    BranchCorrect (emitDBcc ctx memory opcode) memory opcode (.dbcc 0 counter) size m s := by
  obtain ⟨hcondition, -, rfl⟩ := decode_dbcc h
  obtain ⟨v, hmoved, hsum, -, -⟩ := advancePC_spec hat s
  have hemit : emitDBcc ctx memory opcode =
      { code := ops (.nop :: (advancePC ctx.pcRel 4).1)
        exitBlock := []
        m68kCodePtr := ctx.m68kCodePtr + 2
        pcRel := (advancePC ctx.pcRel 4).2
        takeBranch := false
        marker := none } := by
    unfold emitDBcc
    simp only [hcondition, if_true]
  rw [hemit]
  refine ⟨⟨false, exec (advancePC ctx.pcRel 4).1 s, ?_, rfl, ?_, ?_, by simp, fun _ ↦ hmoved.memory⟩,
    fun _ ↦ ?_⟩
  · simp only [Emission.final, run_ops_nil]
    rfl
  · rw [hmoved.pc, BitVec.add_assoc]
    show s.regs regPC + (BitVec.ofInt 32 v + BitVec.ofInt 32 (advancePC ctx.pcRel 4).2) = _
    rw [← BitVec.ofInt_add, hsum, BitVec.ofInt_add, ← BitVec.add_assoc, hat.pc]
    rfl
  · intro r
    rw [hmoved.mapped, hat.regs, regsAfter_dbcc, if_neg fun hr ↦ Bool.noConfusion hr.2]
  · exact nextPtr .word hat.codePtr

/-- One less in the low word. -/
def decremented (w : BitVec 32) : BitVec 32 := w.extractLsb' 16 16 ++ (w.setWidth 16 - 1#16)

theorem insertBits_low (w x : BitVec 32) :
    insertBits w x 0 16 = w.extractLsb' 16 16 ++ x.setWidth 16 := by
  have hmask : lowMask 16 = (BitVec.allOnes 16).setWidth 32 := by decide
  apply BitVec.eq_of_getLsbD_eq
  intro i hi
  simp only [insertBits, hmask, BitVec.shiftLeft_zero, BitVec.getLsbD_or, BitVec.getLsbD_and,
    BitVec.getLsbD_not, BitVec.getLsbD_setWidth, BitVec.getLsbD_allOnes, BitVec.getLsbD_append,
    BitVec.getLsbD_extractLsb', hi, decide_true, Bool.true_and]
  by_cases hlow : i < 16
  · simp [hlow]
  · simp [hlow, show i - 16 < 16 by omega, show 16 + (i - 16) = i by omega]

theorem insertBits_zero_low (x : BitVec 32) :
    insertBits 0 x 0 16 = (x.setWidth 16).setWidth 32 := by
  rw [insertBits_low]
  apply BitVec.eq_of_getLsbD_eq
  intro i hi
  rw [BitVec.getLsbD_append, BitVec.getLsbD_setWidth]
  by_cases hlow : i < 16
  · simp [hlow, hi]
  · simp [hlow]

theorem toNat_sub_one (x : BitVec 16) :
    (x.setWidth 32 - 1).toNat = (2 ^ 32 - 1 + x.toNat) % 2 ^ 32 := by
  rw [BitVec.toNat_sub, BitVec.toNat_setWidth_of_le (by decide)]
  rfl

theorem setWidth_sub_one (x : BitVec 16) : (x.setWidth 32 - 1).setWidth 16 = x - 1#16 := by
  have hlt := x.isLt
  apply BitVec.eq_of_toNat_eq
  rw [BitVec.toNat_setWidth, toNat_sub_one, BitVec.toNat_sub, BitVec.toNat_ofNat]
  omega

theorem msb_sub_one (x : BitVec 16) : (x.setWidth 32 - 1).msb = (x == 0) := by
  have hlt := x.isLt
  rw [Bool.eq_iff_iff, BitVec.msb_eq_decide, decide_eq_true_eq, beq_iff_eq, ← BitVec.toNat_inj,
    toNat_sub_one]
  show 2 ^ 31 ≤ _ ↔ x.toNat = 0
  omega

/-- N says whether the low word was zero. -/
theorem exec_count {counter tmp : ℕ} (hcounter : 12 ≤ counter) (hzr : counter ≠ 31)
    (htmp : tmp < 12) (s : A64.Cpu) :
    ∃ s', exec [uxth tmp counter, .subsImmed tmp tmp 1, bfi counter tmp 0 16] s =
        s'.put counter (decremented (s.regs counter)) ∧
      Moved s s' 0 ∧ s'.flags.n = ((s.regs counter).setWidth 16 == 0) := by
  have htmp' := ne_of_scratch htmp (show 12 ≤ 31 by decide)
  have hne := (ne_of_scratch htmp hcounter).symm
  -- the values of the scratch register after the first and the second instruction
  set x := ((s.regs counter).setWidth 16).setWidth 32 with hx
  have huxth : step s (uxth tmp counter) = s.put tmp x := by
    simp only [step, uxth, if_pos (show 0 ≤ 15 by decide), Cpu.get_of_ne hzr]
    rw [hx, ← insertBits_zero_low, BitVec.ushiftRight_zero]
  have hsubs : step (s.put tmp x) (.subsImmed tmp tmp 1) =
      { s.put tmp (x - 1) with flags := subFlags x 1 } := by
    simp only [step, Cpu.get_put s htmp', Cpu.put_put]
    rfl
  have hget : ∀ f, ({ s.put tmp (x - 1) with flags := f } : A64.Cpu).get counter =
      s.regs counter := by
    intro f
    exact (Cpu.get_put_of_ne s hne _).trans (Cpu.get_of_ne hzr)
  have hget' : ∀ f, ({ s.put tmp (x - 1) with flags := f } : A64.Cpu).get tmp = x - 1 :=
    fun f ↦ Cpu.get_put s htmp' _
  refine ⟨{ s.put tmp (x - 1) with flags := subFlags x 1 }, ?_,
    (moved_put s htmp _).after (moved_flags _ _), ?_⟩
  · rw [exec_cons, huxth, exec_cons, hsubs]
    simp only [exec, List.foldl_cons, List.foldl_nil, step, bfi]
    rw [if_pos (by decide), hget, hget', BitVec.ushiftRight_zero]
    congr 1
    exact (insertBits_low _ _).trans (congrArg _ (setWidth_sub_one _))
  · exact msb_sub_one _

theorem taken_dbcc {condition : Condition} {counter : Fin 8} :
    (Branch.dbcc condition counter).taken m = (!m.ccr.holds condition &&
      (m.regs (counter.castLE (by decide))).setWidth 16 != 0) := rfl

/-- The code up to the count, which leaves if the condition is true. -/
theorem exitsIf_true (hat : At ctx m s) {condition : Condition} (hne : condition ≠ 0)
    {delay : List Op} (hdelay : condition ≠ 1 → delay = [])
    (hmoved : ∀ s, Moved s (exec delay s) 0) :
    ExitsIf (ops delay ++
      if condition ≠ 1 then ops (getCC ctx) ++ jumpOnCondition ctx condition else []) s
      (m.ccr.holds condition) := by
  by_cases hfalse : condition = 1
  · subst hfalse
    refine ⟨exec delay s, hmoved s, fun rest ↦ ?_⟩
    rw [if_neg fun h ↦ h rfl, List.append_nil, run_ops]
    rfl
  · have hge : ∀ c : Condition, c ≠ 0 → c ≠ 1 → 2 ≤ c.toNat := by decide
    rw [hdelay hfalse, if_pos hfalse]
    exact exitsIf_jump hat (hge condition hne hfalse)

/-- The count, and the way to the target unless the counter has run out. -/
theorem run_count {counter tmp : ℕ} (hcounter : 12 ≤ counter) (hzr : counter ≠ 31)
    (htmp : tmp < 12) (code : List Op) (s : A64.Cpu) :
    ∃ s', Moved s s' 0 ∧
      run 0 (ops [uxth tmp counter, .subsImmed tmp tmp 1, bfi counter tmp 0 16] ++
        ([Item.exitIf ccMI] ++ ops code)) s =
          if (s.regs counter).setWidth 16 = 0 then
            .exits (s'.put counter (decremented (s.regs counter)))
          else .fallsThrough (exec code (s'.put counter (decremented (s.regs counter)))) := by
  obtain ⟨s', hexec, hmoved, hn⟩ := exec_count hcounter hzr htmp s
  refine ⟨s', hmoved, ?_⟩
  have hmi : ccMI.holds (s'.put counter (decremented (s.regs counter))).flags =
      ((s.regs counter).setWidth 16 == 0) := by
    rw [← hn, Cpu.put_of_ne hzr]
    rfl
  rw [run_ops, hexec]
  simp only [List.singleton_append, run, hmi, beq_iff_eq, run_ops_nil]

/-- The registers after the count, wherever the program counter goes. -/
theorem Moved.counted {v : BitVec 32} {r : Fin 16} {x : BitVec 32} {s₁ : A64.Cpu}
    (h : Moved s s₁ 0) (h' : Moved (s₁.put (mapM68kRegister r) x) s' v) :
    s'.regs regPC = s.regs regPC + v ∧ s'.memory = s.memory ∧
      ∀ i : Fin 16, s'.regs (mapM68kRegister i) =
        if i = r then x else s.regs (mapM68kRegister i) := by
  have hzr : ∀ r : Fin 16, mapM68kRegister r ≠ 31 := by decide
  have hinj : ∀ i r : Fin 16, i ≠ r → mapM68kRegister i ≠ mapM68kRegister r := by decide
  rw [Cpu.put_of_ne (hzr r)] at h'
  refine ⟨?_, h'.memory.trans h.memory, fun i ↦ ?_⟩
  · rw [h'.pc]
    congr 1
    exact (Function.update_of_ne (scratch_regMap r).2.symm x s₁.regs).trans
      (h.pc.trans (add_zero _))
  · rw [h'.mapped]
    by_cases hi : i = r
    · subst hi
      rw [if_pos rfl]
      exact Function.update_self (mapM68kRegister i) x s₁.regs
    · rw [if_neg hi]
      exact (Function.update_of_ne (hinj i r hi) x s₁.regs).trans (h.mapped i)

/-- The reads that slow down a loop that only waits. -/
def delay (ctx : Context) (condition : Condition) (branchOffset : ℤ) : List Op :=
  if ctx.dbfSlowdown ∧ condition = 1 ∧ branchOffset = 0 ∧
      ctx.m68kCodePtr + 2 < (0x200000 : BitVec 64) then
    [.movImmedU16 ctx.tmp 0 0, .ldrbOffset ctx.tmp ctx.tmp2 0, .ldrbOffset ctx.tmp ctx.tmp2 0,
      .ldrbOffset ctx.tmp ctx.tmp2 0]
  else []

theorem delay_eq_nil {condition : Condition} (h : condition ≠ 1) (branchOffset : ℤ) :
    delay ctx condition branchOffset = [] :=
  if_neg fun hall ↦ h hall.2.1

theorem moved_delay (h : ctx.Allocated) (condition : Condition) (branchOffset : ℤ) (s : A64.Cpu) :
    Moved s (exec (delay ctx condition branchOffset) s) 0 := by
  have hload : ∀ s, Moved s (step s (.ldrbOffset ctx.tmp ctx.tmp2 0)) 0 :=
    fun s ↦ moved_put s h.tmp2_lt _
  unfold delay
  split
  · simp only [exec, List.foldl_cons, List.foldl_nil]
    exact (moved_put s h.tmp_lt _).after ((hload _).after ((hload _).after (hload _)))
  · exact .refl s

theorem emitDBcc_eq (hat : At ctx m s) {condition : Condition} {counter : Fin 8} {r : Fin 16}
    (hne : condition ≠ 0) (h : decode opcode = some (.dbcc condition counter, size))
    (hr : (counter : ℕ) = r) {d : ℤ}
    (hd : (memory.read16 (ctx.m68kCodePtr.setWidth 32)).toInt = d) :
    emitDBcc ctx memory opcode =
      { code := (ops (delay ctx condition (2 + d)) ++
          if condition ≠ 1 then ops (getCC ctx) ++ jumpOnCondition ctx condition else []) ++
          (ops [uxth ctx.tmp (mapM68kRegister r), .subsImmed ctx.tmp ctx.tmp 1,
              bfi (mapM68kRegister r) ctx.tmp 0 16] ++
            ([.exitIf ccMI] ++ ops (addOffset regPC ctx.tmp 4096 4096 (2 + d + ctx.pcRel))))
        exitBlock := .addImmed regPC regPC (4 + ctx.pcRel).toNat :: localExit ctx 1
        m68kCodePtr := ctx.m68kCodePtr + 2 - 4 + BitVec.ofInt 64 (2 + d)
        pcRel := 0
        takeBranch := true
        marker := if ctx.m68kCodePtr + 2 - 4 + BitVec.ofInt 64 (2 + d) < ctx.m68kCodeStart then
          some .breakLoop else none } := by
  obtain ⟨hcondition, hcounter, -⟩ := decode_dbcc h
  have hnonneg := hat.pcRel_nonneg
  have hle := hat.pcRel_le
  have hoffset : getOffsetPC ctx.pcRel 0 = ([], ctx.pcRel) := by
    rw [getOffsetPC_eq (by omega), add_zero]
  unfold emitDBcc delay
  simp only [hcondition, hcounter, hr, if_neg hne, hoffset, hd, List.append_nil,
    List.append_assoc]

theorem emitDBcc_correct (hat : At ctx m s) {condition : Condition} {counter : Fin 8}
    (hne : condition ≠ 0) (h : decode opcode = some (.dbcc condition counter, size)) :
    BranchCorrect (emitDBcc ctx memory opcode) memory opcode (.dbcc condition counter) size m s := by
  obtain ⟨-, -, rfl⟩ := decode_dbcc h
  have hnonneg := hat.pcRel_nonneg
  have hle := hat.pcRel_le
  have hzr : ∀ r : Fin 16, mapM68kRegister r ≠ 31 := by decide
  set r : Fin 16 := counter.castLE (by decide) with hr
  have hdisp : (memory.read16 (ctx.m68kCodePtr.setWidth 32)).toInt =
      (displacement memory opcode m.pc .word).toInt := by
    rw [hat.codePtr]
    exact (BitVec.toInt_signExtend_of_le (by decide)).symm
  rw [emitDBcc_eq hat hne h (r := r) rfl hdisp]
  set d := (displacement memory opcode m.pc .word).toInt with hd
  have htarget : s.regs regPC + BitVec.ofInt 32 (2 + d + ctx.pcRel) =
      target memory opcode m.pc .word := by
    rw [← taken_pc hat]
    congr 2
    ring
  have hnext : s.regs regPC + BitVec.ofInt 32 (4 + ctx.pcRel) = next m.pc .word := by
    rw [← notTaken_pc hat]
    congr 2
    simp only [addend]
    ring
  set block : List Op := .addImmed regPC regPC (4 + ctx.pcRel).toNat :: localExit ctx 1 with hblock
  have hexit : ∀ s, Moved s (exec block s) (BitVec.ofInt 32 (4 + ctx.pcRel)) := by
    intro s
    exact (moved_addImmed (n := 4 + ctx.pcRel) (by omega) (by omega) s).before
      (moved_localExit ctx 1 _)
  have hregs : ∀ i : Fin 16, (Branch.dbcc condition counter).regsAfter m i =
      if i = r ∧ m.ccr.holds condition = false then decremented (m.regs i) else m.regs i :=
    fun i ↦ regsAfter_dbcc m condition counter i
  refine ⟨?_, fun _ ↦ ?_⟩
  rotate_left
  · rw [if_pos rfl, ← targetPtr hat.codePtr, BitVec.ofInt_add, show BitVec.ofInt 64 2 = 2 from rfl]
    congr 1
    ring
  obtain ⟨s₁, hmoved₁, hrun₁⟩ :=
    exitsIf_true hat hne (delay_eq_nil · (2 + d)) (moved_delay hat.allocated condition (2 + d))
  have hpc₁ : s₁.regs regPC = s.regs regPC := hmoved₁.pc.trans (add_zero _)
  cases hholds : m.ccr.holds condition with
  | true =>
    rw [hholds] at hrun₁
    have htaken : (Branch.dbcc condition counter).taken m = false := by
      rw [taken_dbcc, hholds]
      rfl
    refine ⟨true, exec block s₁, ?_, ?_, ?_, ?_, ?_, ?_⟩
    · simp only [Emission.final, hrun₁, if_true]
    · rw [htaken]
      rfl
    · rw [(hexit s₁).pc, hpc₁, hnext, continueAt, htaken]
      exact add_zero _
    · intro i
      rw [(hexit s₁).mapped, hmoved₁.mapped, hat.regs, hregs, if_neg fun hi ↦ ?_]
      rw [hholds] at hi
      exact Bool.noConfusion hi.2
    · exact fun hbsr ↦ Branch.noConfusion hbsr
    · exact fun _ ↦ (hexit s₁).memory.trans hmoved₁.memory
  | false =>
    rw [hholds] at hrun₁
    obtain ⟨s₂, hmoved₂, hrun₂⟩ := run_count (scratch_regMap r).1 (hzr r) hat.allocated.tmp_lt
      (addOffset regPC ctx.tmp 4096 4096 (2 + d + ctx.pcRel)) s₁
    have hmoved := hmoved₁.after hmoved₂
    have hcounter : s₁.regs (mapM68kRegister r) = m.regs r := (hmoved₁.mapped r).trans (hat.regs r)
    rw [hcounter] at hrun₂
    have hregs' : ∀ i : Fin 16, (if i = r then decremented (m.regs r) else
        s.regs (mapM68kRegister i)) = (Branch.dbcc condition counter).regsAfter m i := by
      intro i
      rw [hregs, hholds, hat.regs]
      by_cases hi : i = r
      · rw [if_pos hi, if_pos ⟨hi, rfl⟩, hi]
      · rw [if_neg hi, if_neg fun h ↦ hi h.1]
    by_cases hzero : (m.regs r).setWidth 16 = 0
    · rw [if_pos hzero] at hrun₂
      have htaken : (Branch.dbcc condition counter).taken m = false := by
        rw [taken_dbcc, hholds, ← hr, hzero]
        rfl
      obtain ⟨hpc, hmemory, hmapped⟩ := hmoved.counted (hexit _)
      refine ⟨true, exec block (s₂.put (mapM68kRegister r) (decremented (m.regs r))), ?_, ?_, ?_,
        ?_, ?_, ?_⟩
      rotate_left
      · rw [htaken]
        rfl
      · rw [hpc, hnext, continueAt, htaken]
        exact add_zero _
      · intro i
        rw [hmapped, hregs']
      · exact fun hbsr ↦ Branch.noConfusion hbsr
      · exact fun _ ↦ hmemory
      · simp only [Emission.final, hrun₁, Bool.false_eq_true, if_false, hrun₂]
    · rw [if_neg hzero] at hrun₂
      have htaken : (Branch.dbcc condition counter).taken m = true := by
        rw [taken_dbcc, hholds, ← hr]
        simpa using hzero
      obtain ⟨hpc, hmemory, hmapped⟩ := hmoved.counted
        (moved_addOffset (le_refl _) (le_refl _) hat.allocated.tmp_lt (2 + d + ctx.pcRel) _)
      refine ⟨false, exec (addOffset regPC ctx.tmp 4096 4096 (2 + d + ctx.pcRel))
        (s₂.put (mapM68kRegister r) (decremented (m.regs r))), ?_, ?_, ?_, ?_, ?_, ?_⟩
      rotate_left
      · rw [htaken]
        rfl
      · rw [hpc, htarget, continueAt, htaken]
        exact add_zero _
      · intro i
        rw [hmapped, hregs']
      · exact fun hbsr ↦ Branch.noConfusion hbsr
      · exact fun _ ↦ hmemory
      · simp only [Emission.final, hrun₁, Bool.false_eq_true, if_false, hrun₂]

end Emu68.Branch

import Emu68.MulDiv.Division

/-!
DIVU.W and DIVS.W. The quotient of the host has 32 bits; it is moved to its register with the
remainder if it is the extension of a word.
-/

set_option autoImplicit false
set_option relaxedAutoImplicit false

namespace Emu68.MulDiv

open A64 Alu Lib

section WordDivision

variable {b : Alloc DivReg} {ctx : Context} {i : Fin 8}

/-! ### The flags -/

/-- The update of V, from whether the quotient is a word. -/
def overflowUpdate (mask : Mask) (overflow : Bool) : FlagUpdate :=
  (clearU (swapVC mask)).andThen (if mask &&& srV ≠ 0 then setU srValt overflow else .id)

/-- The update of N and Z, where the instruction before it leaves `n` and `z`. -/
def quotientUpdate (mask : Mask) (overflow n z : Bool) : FlagUpdate :=
  if mask &&& (srZ ||| srN) ≠ 0 then
    (overflowUpdate mask overflow).andThen (Caller.divide.update mask ⟨n, z, false, false⟩)
  else overflowUpdate mask overflow

theorem quotient_fits : ∀ mask : Mask, mask.toNat < 16 → ∀ n z : Bool, (n && z) = false →
    FlagUpdate.Fits mask (resultFlags n z false) (quotientUpdate mask false n z) ∧
      FlagUpdate.Fits mask overflowFlags (quotientUpdate mask true n z) := by
  decide +kernel

theorem overflowFlags_none (old : BitVec 32) : CcrCorrect 0 overflowFlags old old := by
  refine ⟨fun flag ↦ ?_, fun _ _ ↦ rfl⟩
  cases flag with
  | x => exact rfl
  | n => trivial
  | z => trivial
  | v => exact fun hfalse ↦ absurd hfalse (by decide)
  | c => exact fun hfalse ↦ absurd hfalse (by decide)

/-- The flag code, when the host's Z tells whether the quotient is a word. -/
theorem run_wordQuotientFlags (b : Alloc DivReg) (ctx : Context) (s : WideCpu) :
    ∃ s', runForward WideOp.effect 0 (wordQuotientFlags ctx b) s = (s', 0) ∧
      (∀ j, s'.get64 (dn j) = s.get64 (dn j)) ∧
      s'.get (b.reg .cc) = if ctx.mask = 0 then s.get (b.reg .cc)
        else (quotientUpdate ctx.mask (!s.flags.z) (s.get (b.reg .quot) <<< 16).msb
          (s.get (b.reg .quot) <<< 16 == 0)).apply (s.get (b.reg .cc)) := by
  unfold wordQuotientFlags
  by_cases h0 : ctx.mask = 0
  · rw [if_pos h0, if_pos h0]
    exact ⟨s, rfl, fun _ ↦ rfl, rfl⟩
  rw [if_neg h0, if_neg h0]
  have halloc : Allocated (b.reg .cc) (b.reg .tmp) := allocated (by decide)
  have halloc2 : Allocated (b.reg .cc) (b.reg .tmp2) := allocated (by decide)
  have hset : Computes (b.reg .cc)
      (if ctx.mask &&& srV ≠ 0 then emitSetFlagsConditional (b.reg .cc) (b.reg .tmp) srValt ccNE
        else []) fun f ↦ if ctx.mask &&& srV ≠ 0 then setU srValt (ccNE.holds f) else .id := by
    split
    · exact emitSetFlagsConditional_computes halloc (by decide) ccNE
    · exact .nil
  have hcomputes := (emitClearFlags_computes halloc2 (swapVC ctx.mask)).append hset
  have hquiet : Quiet [b.reg .cc, b.reg .tmp, b.reg .tmp2]
      (emitClearFlags (b.reg .cc) (b.reg .tmp2) (swapVC ctx.mask) ++
        if ctx.mask &&& srV ≠ 0 then emitSetFlagsConditional (b.reg .cc) (b.reg .tmp) srValt ccNE
        else []) := by
    refine ((quiet_emitClearFlags _).mono (by simp +contextual)).append ?_
    split
    · exact (quiet_emitSetFlagsConditional _ _).mono (by simp +contextual)
    · exact .nil
  obtain ⟨hflags, hcc⟩ := execInsns_computes hcomputes reg_ne_zero s
  have hhold : ccNE.holds s.flags = !s.flags.z := rfl
  rw [hhold] at hcc
  -- the code up to the flags of the quotient
  have hfirst : runForward WideOp.effect 0 (insns (modifyCC true (b.reg .cc)) ++
      insns (emitClearFlags (b.reg .cc) (b.reg .tmp2) (swapVC ctx.mask)) ++
      insns (if ctx.mask &&& srV ≠ 0 then
        emitSetFlagsConditional (b.reg .cc) (b.reg .tmp) srValt ccNE else [])) s =
      (execInsns (emitClearFlags (b.reg .cc) (b.reg .tmp2) (swapVC ctx.mask) ++
        if ctx.mask &&& srV ≠ 0 then emitSetFlagsConditional (b.reg .cc) (b.reg .tmp) srValt ccNE
        else []) s, 0) := by
    rw [← runForward_insns]
    unfold insns modifyCC
    rw [List.map_append]
    rfl
  rw [quotientUpdate]
  by_cases hnz : ctx.mask &&& (srZ ||| srN) ≠ 0
  · rw [if_pos hnz, if_pos hnz]
    have hop : (cmnReg 31 (b.reg .quot) .LSL 16).effect
        (execInsns (modifyCC true (b.reg .cc)) (execInsns (emitClearFlags (b.reg .cc) (b.reg .tmp2)
          (swapVC ctx.mask) ++ if ctx.mask &&& srV ≠ 0 then
            emitSetFlagsConditional (b.reg .cc) (b.reg .tmp) srValt ccNE else []) s)) =
        ((execInsns (modifyCC true (b.reg .cc)) (execInsns (emitClearFlags (b.reg .cc) (b.reg .tmp2)
          (swapVC ctx.mask) ++ if ctx.mask &&& srV ≠ 0 then
            emitSetFlagsConditional (b.reg .cc) (b.reg .tmp) srValt ccNE else []) s)).setFlags
          (logicFlags (s.get (b.reg .quot) <<< 16)), 0) := by
      have hquot : (execInsns (modifyCC true (b.reg .cc)) (execInsns (emitClearFlags (b.reg .cc)
          (b.reg .tmp2) (swapVC ctx.mask) ++ if ctx.mask &&& srV ≠ 0 then
            emitSetFlagsConditional (b.reg .cc) (b.reg .tmp) srValt ccNE else []) s)).get
              (b.reg .quot) = s.get (b.reg .quot) := by
        show (execInsns _ s).get (b.reg .quot) = _
        rw [WideCpu.get, hquiet.get64 (by simp), WideCpu.get]
      rw [cmnReg, WideOp.effect]
      simp only [WideCpu.put_zero, WideCpu.get_zero, Shift.apply, hquot, addFlags_zero]
    obtain ⟨s', hrun, -, hcc', hkeep⟩ := run_flags .divide ctx.mask halloc halloc2 _ hop
    refine ⟨s', ?_, fun j ↦ ?_, ?_⟩
    · rw [runForward_piece hfirst]
      exact hrun
    · rw [hkeep _ (by simp), hquiet.get64 (by simp)]
    · rw [hcc', FlagUpdate.apply_andThen, oldCcr, if_pos rfl, hcc]
      rfl
  · rw [if_neg hnz, if_neg hnz, List.append_nil]
    exact ⟨_, hfirst, fun j ↦ hquiet.get64 (by simp) s, hcc⟩

/-! ### The division -/

theorem insertBits_high (target source : BitVec 32) :
    insertBits target source 16 16 = source.setWidth 16 ++ target.setWidth 16 := by
  have hmask : lowMask 16 = 0xffff#32 := rfl
  have hlow : ~~~(0xffff#32 <<< 16) = 0xffff#32 := by decide
  rw [insertBits, hmask, hlow]
  refine BitVec.eq_of_toNat_eq ?_
  have hand : ∀ x : BitVec 32, (x &&& 0xffff#32).toNat = x.toNat % 2 ^ 16 := fun x ↦ by
    rw [BitVec.toNat_and]
    exact Nat.and_two_pow_sub_one_eq_mod x.toNat 16
  have hlt := Nat.mod_lt source.toNat (Nat.two_pow_pos 16)
  have hlt' := Nat.mod_lt target.toNat (Nat.two_pow_pos 16)
  rw [BitVec.toNat_or, BitVec.toNat_shiftLeft, hand, hand, BitVec.toNat_append,
    BitVec.toNat_setWidth, BitVec.toNat_setWidth, Nat.shiftLeft_eq,
    Nat.mod_eq_of_lt (a := source.toNat % 2 ^ 16 * 2 ^ 16) (by omega), Nat.or_comm]

theorem insn_bfi_high (rd rn : Reg) (s : WideCpu) : s.insn (bfi rd rn 16 16) =
    s.put rd ((s.get rn).setWidth 16 ++ (s.get rd).setWidth 16) := by
  refine WideCpu.insn_put rfl ?_
  rw [bfi, step, WideCpu.get_low, WideCpu.get_low]
  exact congrArg (s.low.put rd) (insertBits_high _ _)

/-- The quotient is a word, and is moved, or it is not. -/
theorem run_moveWords (b : Alloc DivReg) (i : Fin 8) (signed : Bool) {op : WideOp} (s : WideCpu)
    (hop : op.effect s =
      (s.put (b.reg .tmp) (extend signed ((s.get (b.reg .quot)).setWidth 16)), 0)) :
    ∃ s', runForward WideOp.effect 0 (moveWords b (dn i) op) s = (s', 0) ∧
      s'.flags.z = (extend signed ((s.get (b.reg .quot)).setWidth 16) == s.get (b.reg .quot)) ∧
      s'.get (b.reg .quot) = s.get (b.reg .quot) ∧ s'.get (b.reg .cc) = s.get (b.reg .cc) ∧
      ∀ j, s'.get (dn j) =
        if extend signed ((s.get (b.reg .quot)).setWidth 16) = s.get (b.reg .quot) ∧ j = i then
          (s.get (b.reg .rem)).setWidth 16 ++ (s.get (b.reg .quot)).setWidth 16
        else s.get (dn j) := by
  have hcmp : ∀ t : WideCpu, (cmpReg (b.reg .tmp) (b.reg .quot) .LSL 0).effect t =
      (t.setFlags (subFlags (t.get (b.reg .tmp)) (t.get (b.reg .quot))), 0) := by
    intro t
    rw [cmpReg, WideOp.effect]
    simp only [WideCpu.put_zero, Shift.apply, BitVec.shiftLeft_zero]
  have hz : ∀ f : Nzcv, ccNE.holds f = !f.z := fun _ ↦ rfl
  rw [moveWords, runForward_step hop, runForward_step (hcmp _), runForward_cons]
  have hbranch : ∀ t : WideCpu, (WideOp.bCc ccNE 3).effect t = (t, skipIf (!t.flags.z) 3) :=
    fun t ↦ rfl
  rw [hbranch]
  have heq : (subFlags (extend signed ((s.get (b.reg .quot)).setWidth 16))
      (s.get (b.reg .quot))).z =
        (extend signed ((s.get (b.reg .quot)).setWidth 16) == s.get (b.reg .quot)) := rfl
  simp only [WideCpu.flags_setFlags, WideCpu.get_put_ite reg_ne_zero, if_true, reg_inj, reduceCtorEq,
    if_false, heq]
  by_cases hword : extend signed ((s.get (b.reg .quot)).setWidth 16) = s.get (b.reg .quot)
  · rw [hword]
    simp only [BEq.rfl, Bool.not_true, skipIf, Bool.false_eq_true, if_false]
    -- both moves are made
    have hmoves : ∀ t : WideCpu, runForward WideOp.effect 0
        [.insn (movReg (dn i) (b.reg .quot)), .insn (bfi (dn i) (b.reg .rem) 16 16)] t =
          ((t.put (dn i) (t.get (b.reg .quot))).put (dn i)
            ((t.get (b.reg .rem)).setWidth 16 ++ (t.get (b.reg .quot)).setWidth 16), 0) := by
      intro t
      simp only [runForward_cons, WideOp.effect, WideCpu.insn_movReg, insn_bfi_high, runForward,
        WideCpu.get_put_ite dn_ne_zero, reg_ne_dn, if_false, if_true]
    rw [hmoves]
    refine ⟨_, rfl, ?_, ?_, ?_, fun j ↦ ?_⟩
    · simp only [WideCpu.flags_put, WideCpu.flags_setFlags, subFlags, BEq.rfl]
    · simp only [WideCpu.get_put_ite dn_ne_zero, WideCpu.get_setFlags,
        WideCpu.get_put_ite reg_ne_zero, reg_ne_dn, reg_inj, reduceCtorEq, if_false]
    · simp only [WideCpu.get_put_ite dn_ne_zero, WideCpu.get_setFlags,
        WideCpu.get_put_ite reg_ne_zero, reg_ne_dn, reg_inj, reduceCtorEq, if_false]
    · simp only [WideCpu.get_put_ite dn_ne_zero, WideCpu.get_setFlags,
        WideCpu.get_put_ite reg_ne_zero, dn_ne_reg, reg_inj, reduceCtorEq, if_false, dn_inj,
        true_and]
      split_ifs <;> rfl
  · have hne : (extend signed ((s.get (b.reg .quot)).setWidth 16) == s.get (b.reg .quot)) = false :=
      beq_eq_false_iff_ne.mpr hword
    rw [hne]
    refine ⟨_, rfl, ?_, ?_, ?_, fun j ↦ ?_⟩
    · exact hne
    · exact WideCpu.get_put_of_ne (by simp) _
    · exact WideCpu.get_put_of_ne (by simp) _
    · rw [if_neg fun h ↦ hword h.1]
      exact WideCpu.get_put_of_ne dn_ne_reg _

/-- The part of the code behind the division. -/
def finishWord (b : Alloc DivReg) (ctx : Context) (i : Fin 8) (op : WideOp) : List WideOp :=
  moveWords b (dn i) op ++ wordQuotientFlags ctx b ++
    insns (Branch.advancePC 0 (2 * (ctx.extWords + 1))).1

theorem shiftLeft_word (x : BitVec 32) :
    (x <<< 16).msb = (x.setWidth 16).msb ∧ (x <<< 16 == 0) = (x.setWidth 16 == 0) := by
  have hx := x.isLt
  have hvalue : (x <<< 16).toNat = x.toNat % 2 ^ 16 * 2 ^ 16 := by
    rw [BitVec.toNat_shiftLeft, Nat.shiftLeft_eq]
    omega
  refine ⟨?_, ?_⟩
  · rw [BitVec.msb_eq_decide, BitVec.msb_eq_decide, hvalue, BitVec.toNat_setWidth,
      decide_eq_decide]
    omega
  · rw [Bool.eq_iff_iff, beq_iff_eq, beq_iff_eq, ← BitVec.toNat_inj, ← BitVec.toNat_inj, hvalue,
      BitVec.toNat_setWidth]
    show _ = 0 ↔ _ = 0
    omega

/-- The quotient and the remainder are in the registers of the allocator. -/
theorem run_finishWord (b : Alloc DivReg) (ctx : Context) (i : Fin 8) (s₀ s : WideCpu) {op : WideOp}
    {signed : Bool} {x y old : BitVec 32}
    (hop : op.effect s =
      (s.put (b.reg .tmp) (extend signed ((s.get (b.reg .quot)).setWidth 16)), 0))
    (hy : number signed y ≠ 0) (hquot : s.get (b.reg .quot) = hostDiv signed x y)
    (hrem : s.get (b.reg .rem) = x - hostDiv signed x y * y)
    (hdn : ∀ j, s.get (dn j) = s₀.get (dn j)) (hcc : s.get (b.reg .cc) = old)
    (hold : oldCcr ctx.ccLoaded (b.reg .cc) s₀ = old) (pc : BitVec 32) :
    ∃ s', runForward WideOp.effect 0 (finishWord b ctx i op) s = (s', 0) ∧
      Divided ctx (b.reg .cc) (divide signed 16 (number signed x) (number signed y)) pc
        (fun q r j ↦ if j = i then some (r ++ q) else none) s₀ ⟨s', none, false⟩ := by
  obtain ⟨s₁, hmove, hz, hquot₁, hcc₁, hdn₁⟩ := run_moveWords b i signed s hop
  obtain ⟨s₂, hflags, hdn₂, hcc₂⟩ := run_wordQuotientFlags b ctx s₁
  have hadvance := quiet_advancePC 0 (2 * (ctx.extWords + 1))
  refine ⟨execInsns (Branch.advancePC 0 (2 * (ctx.extWords + 1))).1 s₂, ?_, ?_⟩
  · rw [finishWord, List.append_assoc, runForward_piece hmove, runForward_piece hflags,
      runForward_insns]
  have hregs : ∀ j, (execInsns (Branch.advancePC 0 (2 * (ctx.extWords + 1))).1 s₂).get (dn j) =
      s₁.get (dn j) := by
    intro j
    rw [WideCpu.get, hadvance.get64 (by simp), hdn₂, ← WideCpu.get]
  have hccr : (execInsns (Branch.advancePC 0 (2 * (ctx.extWords + 1))).1 s₂).get (b.reg .cc) =
      s₂.get (b.reg .cc) := by
    rw [WideCpu.get, hadvance.get64 (by simp), ← WideCpu.get]
  have hfits : extend signed ((s.get (b.reg .quot)).setWidth 16) = s.get (b.reg .quot) ↔
      Fits signed 16 ((number signed x).tdiv (number signed y)) := by
    have hrange := tdiv_range signed x (number signed y) fun hs ↦ by
      rw [hs]
      exact Int.natCast_nonneg _
    rw [hquot, hostDiv_eq]
    exact extend_word_iff signed _ hrange.1 hrange.2
  rw [hcc₁, hcc, hquot₁, (shiftLeft_word _).1, (shiftLeft_word _).2, hz] at hcc₂
  by_cases hword : Fits signed 16 ((number signed x).tdiv (number signed y))
  · have hsame := hfits.mpr hword
    rw [divide, if_neg hy, if_pos hword]
    have hq : (s.get (b.reg .quot)).setWidth 16 =
        BitVec.ofInt 16 ((number signed x).tdiv (number signed y)) := by
      rw [hquot, hostDiv_eq, setWidth_ofInt (by decide)]
    have hr : (s.get (b.reg .rem)).setWidth 16 =
        BitVec.ofInt 16 ((number signed x).tmod (number signed y)) := by
      rw [hrem, hostRem_eq, setWidth_ofInt (by decide)]
    refine ⟨rfl, rfl, fun j ↦ ?_, ?_⟩
    · dsimp only
      rw [hregs, hdn₁, hdn]
      by_cases hj : j = i
      · rw [if_pos ⟨hsame, hj⟩, if_pos hj, hq, hr]
        rfl
      · rw [if_neg fun h ↦ hj h.2, if_neg hj]
        rfl
    · dsimp only
      rw [hccr, hcc₂, hold, beq_iff_eq.mpr hsame, hq]
      split_ifs with h0
      · rw [h0]
        exact ccrCorrect_none _
      · exact ((quotient_fits ctx.mask ctx.mask_lt _ _ (msb_and_eq_zero _)).1).ccrCorrect _
  · have hdiffer := mt hfits.mp hword
    rw [divide, if_neg hy, if_neg hword]
    refine ⟨rfl, rfl, fun j ↦ ?_, ?_⟩
    · dsimp only
      rw [hregs, hdn₁, hdn, if_neg fun h ↦ hdiffer h.1]
    · dsimp only
      rw [hccr, hcc₂, hold, beq_eq_false_iff_ne.mpr hdiffer]
      split_ifs with h0
      · rw [h0]
        exact overflowFlags_none _
      · exact ((quotient_fits ctx.mask ctx.mask_lt _ _ (msb_and_eq_zero _)).2).ccrCorrect _

/-! ### The emitters -/

/-- The code in front of the test: the operand, the program counter and the condition codes. -/
theorem run_prologue {ρ : Type} {c : Alloc ρ} {x y : ρ} {load : List WideOp} {s s₁ : WideCpu}
    (hxy : x ≠ y) (hload : runForward WideOp.effect 0 load s = (s₁, 0)) (ctx : Context) :
    ∃ s', runForward WideOp.effect 0 (load ++ insns (Branch.flushPC ctx.pcRel) ++
        insns (modifyCC ctx.ccLoaded (c.reg y))) s = (s', 0) ∧
      (∀ j, s'.get64 (dn j) = s₁.get64 (dn j)) ∧ s'.get64 (c.reg x) = s₁.get64 (c.reg x) ∧
      s'.get (c.reg y) = oldCcr ctx.ccLoaded (c.reg y) s₁ ∧
      s'.get Branch.regPC = s₁.get Branch.regPC + BitVec.ofInt 32 ctx.pcRel := by
  have hflush := quiet_flushPC ctx.pcRel
  have hmodify : Quiet [c.reg y] (modifyCC ctx.ccLoaded (c.reg y)) := quiet_modifyCC ctx.ccLoaded
  refine ⟨execInsns (modifyCC ctx.ccLoaded (c.reg y)) (execInsns (Branch.flushPC ctx.pcRel) s₁),
    ?_, fun j ↦ ?_, ?_, ?_, ?_⟩
  · rw [List.append_assoc, runForward_piece hload, runForward_piece (runForward_insns _ _),
      runForward_insns]
  · rw [hmodify.get64 (by simp), hflush.get64 (by simp)]
  · rw [hmodify.get64 (by simpa using hxy), hflush.get64 (by simp)]
  · rw [(execInsns_modifyCC ctx.ccLoaded reg_ne_zero _).1]
    exact oldCcr_execInsns hflush (by simp) _ _
  · rw [WideCpu.get, hmodify.get64 (by simp), ← WideCpu.get,
      run_flushPC _ (Int.le_trans (by decide) ctx.pcRel_ge)
        (Int.le_trans ctx.pcRel_le (by decide))]

theorem word_eq_zero_iff (x : BitVec 32) :
    (x &&& bitmask 16 0 == 0) = decide (x.setWidth 16 = 0) := by
  have hmask : bitmask 16 0 = 0xffff#32 := by decide
  have hand : (x &&& 0xffff#32).toNat = x.toNat % 2 ^ 16 := by
    rw [BitVec.toNat_and]
    exact Nat.and_two_pow_sub_one_eq_mod x.toNat 16
  rw [hmask, Bool.eq_iff_iff, beq_iff_eq, decide_eq_true_eq, ← BitVec.toNat_inj, hand,
    ← BitVec.toNat_inj, BitVec.toNat_setWidth]
  rfl

/-- The test for zero: the exception is raised, or the code behind it is run. -/
theorem run_testWord (ctx : Context) (q : Reg) (rest : List TrapOp) (s : WideCpu) (pc : BitVec 32)
    (hpc : s.get Branch.regPC = pc + BitVec.ofInt 32 ctx.pcRel) :
    if (s.get q).setWidth 16 = 0 then
      ∃ s', runForward TrapOp.effect 0 (testWord ctx q ++ rest) ⟨s, none, false⟩ =
          (⟨s', some (zeroDivideTrap ctx pc), true⟩, 0) ∧
        ∀ i, s'.get64 (dn i) = s.get64 (dn i)
    else
      runForward TrapOp.effect 0 (testWord ctx q ++ rest) ⟨s, none, false⟩ =
        runForward TrapOp.effect 0 rest
          ⟨s.setFlags (logicFlags (s.get q &&& bitmask 16 0)), none, false⟩ := by
  have htest : TrapOp.effect (.wide (.insn (.andsImmed 31 q 16 0))) ⟨s, none, false⟩ =
      (⟨s.setFlags (logicFlags (s.get q &&& bitmask 16 0)), none, false⟩, 0) := by
    show ((⟨s.insn (.andsImmed 31 q 16 0), none, false⟩ : TrapState), 0) = _
    rw [WideCpu.insn_andsImmed, WideCpu.put_zero]
  have hbranch : TrapOp.effect (.wide (.bCc ccNE ((zeroDivide ctx).length + 1)))
      ⟨s.setFlags (logicFlags (s.get q &&& bitmask 16 0)), none, false⟩ =
        (⟨s.setFlags (logicFlags (s.get q &&& bitmask 16 0)), none, false⟩,
          skipIf (!decide ((s.get q).setWidth 16 = 0)) ((zeroDivide ctx).length + 1)) := by
    rw [← word_eq_zero_iff]
    rfl
  rw [testWord, List.append_assoc, List.cons_append, runForward_step htest, List.singleton_append,
    runForward_step hbranch]
  split_ifs with hzero
  · rw [decide_eq_true hzero]
    exact run_zeroDivide ctx _ pc rest hpc
  · rw [decide_eq_false hzero, Bool.not_false, skipIf, if_pos rfl]
    exact runForward_skip rfl

theorem number_eq_zero {n : ℕ} (signed : Bool) (x : BitVec n) : number signed x = 0 ↔ x = 0 := by
  constructor
  · intro h
    rw [← ofInt_number signed x, h]
    rfl
  · rintro rfl
    cases signed with
    | true => exact BitVec.toInt_zero
    | false =>
      show ((0#n).toNat : ℤ) = 0
      rw [BitVec.toNat_zero]
      rfl

/-- The registers keep their values when the exception is raised. -/
theorem divided_zero {n : ℕ} {cc : Reg} {s s' : WideCpu} {pc : BitVec 32}
    {stored : BitVec n → BitVec n → Fin 8 → Option (BitVec 32)}
    (h : ∀ i, s'.get64 (dn i) = s.get64 (dn i)) :
    Divided (n := n) ctx cc .zeroDivide pc stored s ⟨s', some (zeroDivideTrap ctx pc), true⟩ :=
  ⟨rfl, rfl, fun i ↦ by rw [WideCpu.get, h, ← WideCpu.get], trivial⟩

/-- The results of a division of words go to its register. -/
def storedWord (i : Fin 8) (q r : BitVec 16) (j : Fin 8) : Option (BitVec 32) :=
  if j = i then some (r ++ q) else none

/-- The operand and the data registers are in their places. -/
structure Ready (b : Alloc DivReg) (s₁ t : WideCpu) : Prop where
  dn : ∀ j, t.get64 (dn j) = s₁.get64 (dn j)
  src : t.get64 (b.reg .src) = s₁.get64 (b.reg .src)

/-- The code of a division of words, from what its parts do: the divisor is in the register `q` for
the test, and is `y` where it is extended. -/
theorem word_divided (b : Alloc DivReg) (ctx : Context) (i : Fin 8) (signed : Bool)
    (load : List WideOp) {division : List WideOp} {op : WideOp} {q : Reg} {s s₁ : WideCpu}
    (value : BitVec 16)
    (y : BitVec 32) (hload : runForward WideOp.effect 0 load s = (s₁, 0))
    (hdn₁ : ∀ j, s₁.get64 (dn j) = s.get64 (dn j))
    (hcc₁ : ∀ loaded, oldCcr loaded (b.reg .cc) s₁ = oldCcr loaded (b.reg .cc) s)
    (hvalue : ∀ t, Ready b s₁ t → (t.get q).setWidth 16 = value)
    (hy : number signed y = number signed value)
    (hdivision : ∀ t, Ready b s₁ t → ∃ t', runForward WideOp.effect 0 division t = (t', 0) ∧
      t'.get (b.reg .quot) = hostDiv signed (t.get (dn i)) y ∧
      t'.get (b.reg .rem) = t.get (dn i) - hostDiv signed (t.get (dn i)) y * y ∧
      (∀ j, t'.get64 (dn j) = t.get64 (dn j)) ∧ t'.get (b.reg .cc) = t.get (b.reg .cc))
    (hop : ∀ t : WideCpu, op.effect t =
      (t.put (b.reg .tmp) (extend signed ((t.get (b.reg .quot)).setWidth 16)), 0)) :
    Divided ctx (b.reg .cc)
      (divide signed 16 (number signed (s.get (dn i))) (number signed value))
      (s₁.get Branch.regPC) (storedWord i) s
      (execTrap (wides (load ++ insns (Branch.flushPC ctx.pcRel) ++
        insns (modifyCC ctx.ccLoaded (b.reg .cc))) ++ testWord ctx q ++
          wides (division ++ finishWord b ctx i op)) s) := by
  obtain ⟨s₂, hprologue, hdn₂, hsrc₂, hcc₂, hpc₂⟩ :=
    run_prologue (c := b) (x := .src) (y := .cc) (by decide) hload ctx
  have hready : Ready b s₁ s₂ := ⟨hdn₂, hsrc₂⟩
  have hdn : ∀ j, s₂.get64 (dn j) = s.get64 (dn j) := fun j ↦ (hdn₂ j).trans (hdn₁ j)
  have htest := run_testWord ctx q (wides (division ++ finishWord b ctx i op)) s₂ _ hpc₂
  have hwides := runForward_wides (load ++ insns (Branch.flushPC ctx.pcRel) ++
    insns (modifyCC ctx.ccLoaded (b.reg .cc))) 0 s none
  rw [hprologue] at hwides
  rw [execTrap, List.append_assoc (wides _), runForward_piece hwides]
  by_cases hzero : value = 0
  · rw [hvalue s₂ hready, if_pos hzero] at htest
    obtain ⟨s', hrun, hkeep⟩ := htest
    rw [hrun, divide, if_pos ((number_eq_zero signed value).mpr hzero)]
    exact divided_zero fun j ↦ (hkeep j).trans (hdn j)
  · rw [hvalue s₂ hready, if_neg hzero] at htest
    rw [htest, runForward_wides]
    obtain ⟨s₃, hrun₃, hquot, hrem, hdn₃, hcc₃⟩ :=
      hdivision (s₂.setFlags (logicFlags (s₂.get q &&& bitmask 16 0))) ⟨hdn₂, hsrc₂⟩
    have hx : s₂.get (dn i) = s.get (dn i) := by rw [WideCpu.get, hdn, ← WideCpu.get]
    rw [WideCpu.get_setFlags, hx] at hquot hrem
    obtain ⟨s', hrun, hresult⟩ := run_finishWord b ctx i s s₃ (hop s₃)
      (fun h ↦ hzero ((number_eq_zero signed value).mp (hy.symm.trans h))) hquot hrem
      (fun j ↦ by rw [WideCpu.get, hdn₃, WideCpu.get64_setFlags, hdn, ← WideCpu.get])
      (hcc₃.trans (hcc₂.trans (hcc₁ _))) rfl (s₁.get Branch.regPC)
    rw [hy] at hresult
    rw [runForward_piece hrun₃, hrun]
    exact hresult

/-- The division of the host and the multiply-subtract behind it. -/
theorem run_divide (b : Alloc DivReg) (i : Fin 8) (signed : Bool) {q : Reg} (y : BitVec 32)
    (t : WideCpu) (hq : t.get q = y) (hne : q ≠ b.reg .quot) :
    ∃ t', runForward WideOp.effect 0
        [if signed then .sdiv (b.reg .quot) (dn i) q else .udiv (b.reg .quot) (dn i) q,
          .msub (b.reg .rem) (dn i) (b.reg .quot) q] t = (t', 0) ∧
      t'.get (b.reg .quot) = hostDiv signed (t.get (dn i)) y ∧
      t'.get (b.reg .rem) = t.get (dn i) - hostDiv signed (t.get (dn i)) y * y ∧
      (∀ j, t'.get64 (dn j) = t.get64 (dn j)) ∧ t'.get (b.reg .cc) = t.get (b.reg .cc) := by
  have hdivide : (if signed then .sdiv (b.reg .quot) (dn i) q
      else .udiv (b.reg .quot) (dn i) q : WideOp).effect t =
        (t.put (b.reg .quot) (hostDiv signed (t.get (dn i)) y), 0) := by
    rw [← hq]
    cases signed <;> rfl
  rw [runForward_step hdivide]
  refine ⟨_, rfl, ?_, ?_, fun j ↦ ?_, ?_⟩
  all_goals
    simp only [WideOp.effect, WideCpu.get_put_ite reg_ne_zero, WideCpu.get64_put_ite reg_ne_zero,
      dn_ne_reg, reg_inj, reduceCtorEq, if_false, if_true, if_neg hne, hq]

theorem emitDivsW_divided (b : Alloc DivReg) (ctx : Context) (i : Fin 8)
    (operand : Operand 16 true (b.reg .src) (b.reg .cc)) (s : WideCpu) :
    Divided ctx (b.reg .cc)
      (divide true 16 (number true (s.get (dn i))) (number true (operand.value s)))
      ((operand.after s).get Branch.regPC) (storedWord i) s
      (execTrap (emitDivsW ctx b i operand) s) := by
  obtain ⟨hreg, s₁, hload, hvalue, hdn₁, hcc₁, hpc₁⟩ := run_readExtended operand (by decide) s
  have hsrc : ∀ t, Ready b s₁ t → t.get (b.reg .src) = (operand.value s).signExtend 32 := by
    intro t ht
    rw [WideCpu.get, ht.src, ← WideCpu.get, hvalue]
  unfold emitDivsW
  dsimp only
  rw [hreg, ← hpc₁, List.append_assoc _ (wordQuotientFlags _ _), List.append_assoc [_, _],
    ← List.append_assoc (moveWords _ _ _)]
  refine word_divided b ctx i true _ (operand.value s) ((operand.value s).signExtend 32) hload hdn₁
    hcc₁ (fun t ht ↦ ?_) (BitVec.toInt_signExtend_of_le (by decide)) (fun t ht ↦ ?_) fun t ↦ ?_
  · rw [hsrc t ht]
    exact (setWidth_ofInt (by decide) _).trans BitVec.ofInt_toInt
  · exact run_divide b i true _ t (hsrc t ht) (by simp)
  · rw [sxth, WideOp.effect, signedField_low _ (n := 16) (by decide) (by decide)]
    rfl

theorem emitDivuW_divided (b : Alloc DivReg) (ctx : Context) (i : Fin 8)
    (operand : Operand 16 false (b.reg .src) (b.reg .cc)) (s : WideCpu) :
    Divided ctx (b.reg .cc)
      (divide false 16 (number false (s.get (dn i))) (number false (operand.value s)))
      ((operand.after s).get Branch.regPC) (storedWord i) s
      (execTrap (emitDivuW ctx b i operand) s) := by
  have hextend : ∀ t : WideCpu, (WideOp.insn (uxth (b.reg .tmp) (b.reg .quot))).effect t =
      (t.put (b.reg .tmp) (extend false ((t.get (b.reg .quot)).setWidth 16)), 0) := by
    intro t
    rw [WideOp.effect, WideCpu.insn_uxth]
    rfl
  have hnumber : ∀ y : BitVec 16, number false (y.setWidth 32) = number false y := by
    intro y
    have hlt := y.isLt
    show ((y.setWidth 32).toNat : ℤ) = (y.toNat : ℤ)
    rw [BitVec.toNat_setWidth, Nat.mod_eq_of_lt (by omega)]
  unfold emitDivuW
  dsimp only
  rw [List.append_assoc _ (wordQuotientFlags _ _), List.append_assoc _ (moveWords _ _ _),
    ← List.append_assoc (moveWords _ _ _)]
  cases operand with
  | dataRegister k =>
    refine word_divided b ctx i false [] ((s.get (dn k)).setWidth 16)
      (((s.get (dn k)).setWidth 16).setWidth 32) rfl (fun _ ↦ rfl) (fun _ ↦ rfl) (fun t ht ↦ ?_)
      (hnumber _) (fun t ht ↦ ?_) hextend
    · exact congrArg (BitVec.setWidth 16) (congrArg (BitVec.setWidth 32) (ht.dn k))
    · have hk : t.get (dn k) = s.get (dn k) := congrArg (BitVec.setWidth 32) (ht.dn k)
      -- the divisor is extended in the register of the remainder
      refine ⟨_, rfl, ?_, ?_, fun j ↦ ?_, ?_⟩
      all_goals
        simp only [Operand.read, WideOp.effect, WideCpu.insn_uxth, WideCpu.get_put_ite reg_ne_zero,
          WideCpu.get64_put_ite reg_ne_zero, dn_ne_reg, reg_inj, reduceCtorEq, if_false, if_true, hk,
          hostDiv, Bool.false_eq_true]
  | fetched run value fetches =>
    have hsrc : ∀ t, Ready b (run s) t → t.get (b.reg .src) = (value s).setWidth 32 := by
      intro t ht
      rw [WideCpu.get, ht.src, fetches.operand, if_neg Bool.false_ne_true,
        BitVec.setWidth_setWidth_of_le _ (by decide : 32 ≤ 64), BitVec.setWidth_eq]
    refine word_divided b ctx i false [.operand run] (value s) ((value s).setWidth 32) rfl
      (fetches.dn s) (fetches.cc s) (fun t ht ↦ ?_) (hnumber _) (fun t ht ↦ ?_) hextend
    · show (t.get (b.reg .src)).setWidth 16 = _
      rw [hsrc t ht, BitVec.setWidth_setWidth_of_le _ (by decide), BitVec.setWidth_eq]
    · exact run_divide b i false _ t (hsrc t ht) (by simp [Operand.read])

end WordDivision

end Emu68.MulDiv

import Emu68.MulDiv.WordDivision

/-!
DIVS.L and DIVU.L. The dividend has 32 bits or 64; the divisor of a 64-bit unsigned division is read
with the upper half that its register happens to have.
-/

set_option autoImplicit false
set_option relaxedAutoImplicit false

namespace Emu68.MulDiv

open A64 Alu Lib

section LongDivision

variable {c : Alloc LongDivReg} {ctx : Context} {dq dr : Fin 8}

/-! ### The flags -/

/-- V and C, where `overflow` tells that the quotient of 64 bits is no longword. -/
def longOverflowUpdate (mask : Mask) (wide overflow : Bool) : FlagUpdate :=
  if mask &&& srVC ≠ 0 then
    (clearU (srValt ||| srCalt)).andThen (if wide then setU srValt overflow else .id)
  else .id

/-- N and Z. -/
def longSignUpdate (mask : Mask) (f : Nzcv) : FlagUpdate :=
  if mask &&& srNZ = srZ then (clearU srZ).andThen (setU srZ (ccEQ.holds f))
  else if mask &&& srNZ = srN then (clearU srN).andThen (setU srN (ccMI.holds f))
  else (nzxx mask).update f

def longQuotientUpdate (mask : Mask) (wide overflow n z : Bool) : FlagUpdate :=
  if mask &&& srNZ ≠ 0 then
    (longOverflowUpdate mask wide overflow).andThen (longSignUpdate mask ⟨n, z, false, false⟩)
  else longOverflowUpdate mask wide overflow

theorem longQuotient_fits : ∀ mask : Mask, mask.toNat < 16 → ∀ wide n z : Bool, (n && z) = false →
    FlagUpdate.Fits mask (resultFlags n z false) (longQuotientUpdate mask wide false n z) ∧
      FlagUpdate.Fits mask overflowFlags (longQuotientUpdate mask true true n z) := by
  decide +kernel

/-- No overflow is told. -/
theorem longQuotient_overflow (wide : Bool) (f : Nzcv) (old : BitVec 32) :
    ¬ CcrCorrect srV overflowFlags old
      ((longQuotientUpdate srV wide false f.n f.z).apply old) := by
  have hbits : ∀ wide n z : Bool, (longQuotientUpdate srV wide false n z).keep.getLsbD 0 = false ∧
      (longQuotientUpdate srV wide false n z).set.getLsbD 0 = false := by
    decide +kernel
  intro h
  have hv := h.flags .v (by decide)
  rw [FlagUpdate.apply_bit, show Flag.v.bit = 0 from rfl, (hbits wide f.n f.z).1,
    (hbits wide f.n f.z).2, Bool.and_false] at hv
  exact Bool.noConfusion hv

theorem longSign_computes (mask : Mask) :
    Computes (c.reg .cc)
      (if mask &&& srNZ = srZ then
          [bicImmed (c.reg .cc) (c.reg .cc) 1 30] ++
            emitSetFlagsConditional (c.reg .cc) (c.reg .tmp) srZ ccEQ
        else if mask &&& srNZ = srN then
          [bicImmed (c.reg .cc) (c.reg .cc) 1 29] ++
            emitSetFlagsConditional (c.reg .cc) (c.reg .tmp) srN ccMI
        else (emitGetNZxx (c.reg .cc) (c.reg .tmp) mask).code) (longSignUpdate mask) := by
  have halloc : Allocated (c.reg .cc) (c.reg .tmp) := allocated (by decide)
  unfold longSignUpdate
  split_ifs
  · exact (bicImmed_computes reg_ne_zero (by decide)).append
      (emitSetFlagsConditional_computes halloc (by decide) ccEQ)
  · exact (bicImmed_computes reg_ne_zero (by decide)).append
      (emitSetFlagsConditional_computes halloc (by decide) ccMI)
  · exact (emitGetNZxx_has halloc mask).computes

theorem longSign_quiet (mask : Mask) :
    Quiet [c.reg .cc, c.reg .tmp]
      (if mask &&& srNZ = srZ then
          [bicImmed (c.reg .cc) (c.reg .cc) 1 30] ++
            emitSetFlagsConditional (c.reg .cc) (c.reg .tmp) srZ ccEQ
        else if mask &&& srNZ = srN then
          [bicImmed (c.reg .cc) (c.reg .cc) 1 29] ++
            emitSetFlagsConditional (c.reg .cc) (c.reg .tmp) srN ccMI
        else (emitGetNZxx (c.reg .cc) (c.reg .tmp) mask).code) := by
  have hbic : ∀ ror, Quiet [c.reg .cc, c.reg .tmp] [bicImmed (c.reg .cc) (c.reg .cc) 1 ror] :=
    fun ror ↦ by simp [Quiet, quietIn, bicImmed, Op.dest]
  split_ifs
  · exact (hbic 30).append (quiet_emitSetFlagsConditional _ _)
  · exact (hbic 29).append (quiet_emitSetFlagsConditional _ _)
  · exact quiet_emitGetNZxx mask

theorem longOverflow_computes (mask : Mask) (wide : Bool) :
    Computes (c.reg .cc)
      (if mask &&& srVC ≠ 0 then
        emitClearFlags (c.reg .cc) (c.reg .tmp) (srValt ||| srCalt) ++
          if wide then emitSetFlagsConditional (c.reg .cc) (c.reg .tmp) srValt ccNE else []
      else []) fun f ↦ longOverflowUpdate mask wide (!f.z) := by
  have halloc : Allocated (c.reg .cc) (c.reg .tmp) := allocated (by decide)
  unfold longOverflowUpdate
  split_ifs
  · exact (emitClearFlags_computes halloc _).append
      (emitSetFlagsConditional_computes halloc (by decide) ccNE)
  · exact (emitClearFlags_computes halloc _).append .nil
  · exact .nil

theorem longOverflow_quiet (mask : Mask) (wide : Bool) :
    Quiet [c.reg .cc, c.reg .tmp]
      (if mask &&& srVC ≠ 0 then
        emitClearFlags (c.reg .cc) (c.reg .tmp) (srValt ||| srCalt) ++
          if wide then emitSetFlagsConditional (c.reg .cc) (c.reg .tmp) srValt ccNE else []
      else []) := by
  split_ifs
  · exact (quiet_emitClearFlags _).append (quiet_emitSetFlagsConditional _ _)
  · exact (quiet_emitClearFlags _).append .nil
  · exact .nil

/-- The flag code, when the host's Z tells whether the quotient is a longword. -/
theorem run_longQuotientFlags (c : Alloc LongDivReg) (ctx : Context) (wide : Bool) (dq : Fin 8)
    (s : WideCpu) :
    ∃ s', runForward WideOp.effect 0 (longQuotientFlags ctx c wide (dn dq)) s = (s', 0) ∧
      (∀ j, s'.get64 (dn j) = s.get64 (dn j)) ∧
      s'.get (c.reg .cc) = (longQuotientUpdate ctx.mask wide (!s.flags.z) (s.get (dn dq)).msb
        (s.get (dn dq) == 0)).apply (s.get (c.reg .cc)) := by
  have hoverflow : Computes (c.reg .cc) _ _ := longOverflow_computes ctx.mask wide
  have hquiet : Quiet [c.reg .cc, c.reg .tmp] _ := longOverflow_quiet ctx.mask wide
  unfold longQuotientFlags longQuotientUpdate
  dsimp only
  by_cases h0 : ctx.mask = 0
  · rw [if_pos h0, h0, if_neg (by decide), longOverflowUpdate, if_neg (by decide)]
    exact ⟨s, rfl, fun _ ↦ rfl, (FlagUpdate.apply_id _).symm⟩
  have hcode : (if ctx.mask &&& srVC ≠ 0 then
      insns (emitClearFlags (c.reg .cc) (c.reg .tmp) (srValt ||| srCalt)) ++
        if wide then insns (emitSetFlagsConditional (c.reg .cc) (c.reg .tmp) srValt ccNE) else []
      else []) = insns (if ctx.mask &&& srVC ≠ 0 then
        emitClearFlags (c.reg .cc) (c.reg .tmp) (srValt ||| srCalt) ++
          if wide then emitSetFlagsConditional (c.reg .cc) (c.reg .tmp) srValt ccNE else []
      else []) := by
    split_ifs
    · exact List.map_append.symm
    · rw [List.append_nil, List.append_nil]
    · rfl
  rw [if_neg h0, hcode]
  by_cases hnz : ctx.mask &&& srNZ ≠ 0
  · rw [if_pos hnz, if_pos hnz]
    have hop : ∀ t : WideCpu, (∀ j, t.get64 (dn j) = s.get64 (dn j)) →
        (cmnReg 31 (dn dq) .LSL 0).effect t =
          (t.setFlags (logicFlags (s.get (dn dq))), 0) := by
      intro t ht
      have hdq : t.get (dn dq) = s.get (dn dq) := congrArg (BitVec.setWidth 32) (ht dq)
      rw [cmnReg, WideOp.effect]
      simp only [WideCpu.put_zero, WideCpu.get_zero, Shift.apply, BitVec.shiftLeft_zero, hdq,
        addFlags_zero]
    obtain ⟨s', hrun, -, hcc, hkeep⟩ := run_between hoverflow (longSign_computes ctx.mask)
      reg_ne_zero hquiet (longSign_quiet ctx.mask) s
      (hop _ fun j ↦ hquiet.get64 (by simp) s)
    refine ⟨s', (congrArg (runForward WideOp.effect 0 · s) ?_).trans hrun,
      fun j ↦ hkeep _ (by simp), ?_⟩
    · rw [List.append_assoc]
    · rw [hcc, FlagUpdate.apply_andThen]
      rfl
  · rw [if_neg hnz, if_neg hnz, List.append_nil, runForward_insns]
    exact ⟨_, rfl, fun j ↦ hquiet.get64 (by simp) s,
      (execInsns_computes hoverflow reg_ne_zero s).2⟩

/-! ### The division -/

/-- The results of a division of longwords go to two registers, or the quotient to the one. -/
def storedLong (dq dr : Fin 8) (q r : BitVec 32) (j : Fin 8) : Option (BitVec 32) :=
  if j = dq then some q else if j = dr then some r else none

/-- The host divides a dividend of 32 bits. -/
theorem run_divide32 (c : Alloc LongDivReg) (signed : Bool) (dq dr : Fin 8) {q : Reg}
    (hq : q ≠ c.reg .tmp) (t : WideCpu) :
    ∃ t', runForward WideOp.effect 0 (divide32 c signed (dn dq) (dn dr) q) t = (t', 0) ∧
      t'.get (c.reg .cc) = t.get (c.reg .cc) ∧
      ∀ j, t'.get (dn j) = (storedLong dq dr (hostDiv signed (t.get (dn dq)) (t.get q))
        (t.get (dn dq) - hostDiv signed (t.get (dn dq)) (t.get q) * t.get q) j).getD
          (t.get (dn j)) := by
  have hdivide : ∀ rd : Reg, ((if signed then .sdiv else .udiv : Reg → Reg → Reg → WideOp) rd
      (dn dq) q).effect t = (t.put rd (hostDiv signed (t.get (dn dq)) (t.get q)), 0) := by
    intro rd
    cases signed <;> rfl
  unfold divide32
  dsimp only
  by_cases heq : dr = dq
  · rw [if_pos (dn_inj.mpr heq), runForward_step (hdivide _)]
    refine ⟨_, rfl, WideCpu.get_put_of_ne (by simp) _, fun j ↦ ?_⟩
    simp only [WideCpu.get_put_ite dn_ne_zero, storedLong, heq, dn_inj]
    split_ifs <;> rfl
  · rw [if_neg fun h ↦ heq (dn_inj.mp h), runForward_step (hdivide _)]
    refine ⟨_, rfl, ?_, fun j ↦ ?_⟩
    · simp only [WideOp.effect, WideCpu.insn_movReg, WideCpu.get_put_ite dn_ne_zero,
        WideCpu.get_put_ite reg_ne_zero, reg_ne_dn, reg_inj, reduceCtorEq, if_false]
    · simp only [WideOp.effect, WideCpu.insn_movReg, WideCpu.get_put_ite dn_ne_zero,
        WideCpu.get_put_ite reg_ne_zero, reg_ne_dn, dn_ne_reg, if_neg hq, if_false, if_true, dn_inj,
        storedLong]
      split_ifs <;> rfl

/-- The halves of the dividend are put together. -/
theorem fieldMove_high (x : BitVec 32) (y : BitVec 64) :
    fieldMove (x.setWidth 64) y 32 31 = y.setWidth 32 ++ x := by
  have hmask : ∀ i < 64, (BitVec.ofNat 64 (2 ^ 32 - 1)).getLsbD i = decide (i < 32) := by decide
  rw [fieldMove, if_neg (by decide), insertField]
  refine BitVec.eq_of_getLsbD_eq fun i hi ↦ ?_
  rw [BitVec.getLsbD_or, BitVec.getLsbD_and, BitVec.getLsbD_not, BitVec.getLsbD_shiftLeft,
    BitVec.getLsbD_shiftLeft, BitVec.getLsbD_and, BitVec.getLsbD_append, BitVec.getLsbD_setWidth,
    BitVec.getLsbD_setWidth, hmask (i - 32) (by omega)]
  by_cases hlow : i < 32
  · simp [hi, hlow]
  · simp [hi, hlow, show i - 32 < 32 by omega]

/-- The host divides 64 bits by 64 bits. -/
theorem run_wideQuotient (c : Alloc LongDivReg) (signed : Bool) (dq dr : Fin 8) {q : Reg}
    (hq : q ≠ c.reg .result) (t : WideCpu) (y : BitVec 64)
    (hy : y = if signed then (t.get q).signExtend 64 else t.get64 q) :
    ∃ t', runForward WideOp.effect 0
        (if signed then
          [sxtw64 (c.reg .qExt) q, .sdiv64 (c.reg .result) (c.reg .tmp2) (c.reg .qExt)] ++
            if dn dr ≠ dn dq then
              [WideOp.msub64 (c.reg .tmp) (c.reg .tmp2) (c.reg .result) (c.reg .qExt)] else []
        else [WideOp.udiv64 (c.reg .result) (c.reg .tmp2) q] ++
            if dn dr ≠ dn dq then
              [WideOp.msub64 (c.reg .tmp) (c.reg .tmp2) (c.reg .result) q] else []) t = (t', 0) ∧
      t'.get64 (c.reg .result) = hostDiv signed (t.get64 (c.reg .tmp2)) y ∧
      (dr ≠ dq → t'.get64 (c.reg .tmp) =
        t.get64 (c.reg .tmp2) - hostDiv signed (t.get64 (c.reg .tmp2)) y * y) ∧
      (∀ j, t'.get64 (dn j) = t.get64 (dn j)) ∧ t'.get (c.reg .cc) = t.get (c.reg .cc) := by
  have hextend : ∀ x : WideCpu, signedField (x.get64 q) 0 31 = (x.get q).signExtend 64 := fun x ↦
    signedField_low (x.get64 q) (n := 32) (by decide) (by decide)
  by_cases heq : dr = dq
  · rw [if_neg (not_not.mpr (dn_inj.mpr heq)), if_neg (not_not.mpr (dn_inj.mpr heq)),
      List.append_nil, List.append_nil]
    cases signed with
    | true =>
      refine ⟨_, rfl, ?_, fun hne ↦ absurd heq hne, fun j ↦ ?_, ?_⟩
      all_goals
        simp only [sxtw64, WideOp.effect, WideCpu.get64_put64_ite reg_ne_zero,
          WideCpu.get_put64_ite reg_ne_zero, hextend, dn_ne_reg, reg_inj, reduceCtorEq, if_false,
          if_true, hostDiv, hy]
    | false =>
      refine ⟨_, rfl, ?_, fun hne ↦ absurd heq hne, fun j ↦ ?_, ?_⟩
      all_goals
        simp only [WideOp.effect, WideCpu.get64_put64_ite reg_ne_zero,
          WideCpu.get_put64_ite reg_ne_zero, dn_ne_reg, reg_inj, reduceCtorEq, if_false,
          if_true, hostDiv, hy, Bool.false_eq_true]
  · rw [if_pos fun h ↦ heq (dn_inj.mp h), if_pos fun h ↦ heq (dn_inj.mp h)]
    cases signed with
    | true =>
      refine ⟨_, rfl, ?_, fun _ ↦ ?_, fun j ↦ ?_, ?_⟩
      all_goals
        simp only [sxtw64, WideOp.effect, WideCpu.get64_put64_ite reg_ne_zero,
          WideCpu.get_put64_ite reg_ne_zero, hextend, dn_ne_reg, reg_inj, reduceCtorEq, if_false,
          if_true, hostDiv, hy]
    | false =>
      refine ⟨_, rfl, ?_, fun _ ↦ ?_, fun j ↦ ?_, ?_⟩
      all_goals
        simp only [WideOp.effect, WideCpu.get64_put64_ite reg_ne_zero,
          WideCpu.get_put64_ite reg_ne_zero, dn_ne_reg, reg_inj, reduceCtorEq, if_false,
          if_true, if_neg hq, hostDiv, hy, Bool.false_eq_true]

theorem run_dividend (c : Alloc LongDivReg) (dq dr : Fin 8) (t : WideCpu) :
    ∃ t', runForward WideOp.effect 0
        [.insn (movReg (c.reg .tmp2) (dn dq)), bfi64 (c.reg .tmp2) (dn dr) 32 32] t = (t', 0) ∧
      t'.get64 (c.reg .tmp2) = t.get (dn dr) ++ t.get (dn dq) ∧
      ∀ r ≠ c.reg .tmp2, t'.get64 r = t.get64 r := by
  refine ⟨_, rfl, ?_, fun r hr ↦ ?_⟩
  · simp only [bfi64, WideOp.effect, WideCpu.insn_movReg, WideCpu.get64_put64_ite reg_ne_zero,
      WideCpu.get64_put_ite reg_ne_zero, dn_ne_reg, if_false, if_true]
    exact fieldMove_high _ _
  · simp only [bfi64, WideOp.effect, WideCpu.insn_movReg, WideCpu.get64_put64_ite reg_ne_zero,
      WideCpu.get64_put_ite reg_ne_zero, if_neg hr]

/-- The quotient is a longword, and is moved with the remainder, or it is not. -/
theorem run_moveLongs (c : Alloc LongDivReg) (signed : Bool) (dq dr : Fin 8) (t : WideCpu)
    (q r : BitVec 64) (hq : t.get64 (c.reg .result) = q)
    (hr : dr ≠ dq → t.get64 (c.reg .tmp) = r) :
    ∃ t', runForward WideOp.effect 0
        ([if signed then sxtw64 (c.reg .tmp2) (c.reg .result)
            else .insn (movReg (c.reg .tmp2) (c.reg .result)),
          cmp64Reg (c.reg .tmp2) (c.reg .result) .LSL 0,
          .bCc ccNE (([WideOp.insn (movReg (dn dq) (c.reg .result))] ++ if dn dr ≠ dn dq then
            [WideOp.insn (movReg (dn dr) (c.reg .tmp))] else []).length + 1)] ++
          ([WideOp.insn (movReg (dn dq) (c.reg .result))] ++ if dn dr ≠ dn dq then
            [WideOp.insn (movReg (dn dr) (c.reg .tmp))] else [])) t = (t', 0) ∧
      t'.get (c.reg .cc) = t.get (c.reg .cc) ∧
      t'.flags.z = (extend signed (q.setWidth 32) == q) ∧
      ∀ j, t'.get (dn j) =
        if extend signed (q.setWidth 32) = q then
          (storedLong dq dr (q.setWidth 32) (r.setWidth 32) j).getD (t.get (dn j))
        else t.get (dn j) := by
  have hextend : WideOp.effect (if signed then sxtw64 (c.reg .tmp2) (c.reg .result)
      else .insn (movReg (c.reg .tmp2) (c.reg .result))) t =
        (t.put64 (c.reg .tmp2) (extend signed (q.setWidth 32)), 0) := by
    cases signed with
    | true =>
      show (t.put64 _ (signedField (t.get64 (c.reg .result)) 0 31), 0) = _
      rw [hq, signedField_low q (n := 32) (by decide) (by decide)]
      rfl
    | false =>
      show (t.insn (movReg _ _), 0) = _
      rw [WideCpu.insn_movReg, WideCpu.get, hq]
      rfl
  have hcmp : ∀ s : WideCpu, s.get64 (c.reg .tmp2) = extend signed (q.setWidth 32) →
      s.get64 (c.reg .result) = q → (cmp64Reg (c.reg .tmp2) (c.reg .result) .LSL 0).effect s =
        (s.setFlags (subFlags64 (extend signed (q.setWidth 32)) q), 0) := by
    intro s hs hs'
    rw [cmp64Reg, WideOp.effect]
    simp only [WideCpu.put64_zero, Shift.apply64, BitVec.shiftLeft_zero, hs, hs']
  have hbranch : ∀ (s : WideCpu) (n : ℕ), (WideOp.bCc ccNE n).effect s =
      (s, skipIf (!s.flags.z) n) := fun s n ↦ rfl
  have hz : (subFlags64 (extend signed (q.setWidth 32)) q).z =
      (extend signed (q.setWidth 32) == q) := rfl
  have hskip : ∀ (code : List WideOp) (s : WideCpu),
      runForward WideOp.effect (code.length + 1 - 1) code s = (s, 0) := by
    intro code s
    exact runForward_skip_all (Nat.add_sub_cancel _ _).symm
  rw [List.cons_append, runForward_step hextend, List.cons_append,
    runForward_step (hcmp _ (WideCpu.get64_put64 reg_ne_zero _)
      ((WideCpu.get64_put64_of_ne (by simp) _).trans hq)), List.singleton_append, runForward_cons,
    hbranch, WideCpu.flags_setFlags, hz]
  by_cases hlong : extend signed (q.setWidth 32) = q
  · rw [beq_iff_eq.mpr hlong, Bool.not_true, skipIf, if_neg Bool.false_ne_true]
    simp only [if_pos hlong]
    have hquotient : t.get (c.reg .result) = q.setWidth 32 := congrArg (BitVec.setWidth 32) hq
    by_cases heq : dr = dq
    · rw [if_neg (not_not.mpr (dn_inj.mpr heq)), List.append_nil]
      refine ⟨_, rfl, ?_, ?_, fun j ↦ ?_⟩
      · simp only [WideOp.effect, WideCpu.insn_movReg, WideCpu.get_put_ite dn_ne_zero,
          WideCpu.get_setFlags, WideCpu.get_put64_ite reg_ne_zero, reg_ne_dn, reg_inj, reduceCtorEq,
          if_false]
      · simp only [WideOp.effect, WideCpu.insn_movReg, WideCpu.flags_put, WideCpu.flags_setFlags]
        exact beq_iff_eq.mpr hlong
      · simp only [WideOp.effect, WideCpu.insn_movReg, WideCpu.get_put_ite dn_ne_zero,
          WideCpu.get_setFlags, WideCpu.get_put64_ite reg_ne_zero, dn_ne_reg, reg_inj, reduceCtorEq,
          if_false, hquotient, dn_inj, storedLong, heq]
        split_ifs <;> rfl
    · rw [if_pos fun h ↦ heq (dn_inj.mp h)]
      have hremainder : t.get (c.reg .tmp) = r.setWidth 32 :=
        congrArg (BitVec.setWidth 32) (hr heq)
      refine ⟨_, rfl, ?_, ?_, fun j ↦ ?_⟩
      · simp only [WideOp.effect, WideCpu.insn_movReg, WideCpu.get_put_ite dn_ne_zero,
          WideCpu.get_setFlags, WideCpu.get_put64_ite reg_ne_zero, reg_ne_dn, reg_inj, reduceCtorEq,
          if_false]
      · simp only [WideOp.effect, WideCpu.insn_movReg, WideCpu.flags_put, WideCpu.flags_setFlags]
        exact beq_iff_eq.mpr hlong
      · simp only [WideOp.effect, WideCpu.insn_movReg, WideCpu.get_put_ite dn_ne_zero,
          WideCpu.get_setFlags, WideCpu.get_put64_ite reg_ne_zero, dn_ne_reg, reg_ne_dn, reg_inj,
          reduceCtorEq, if_false, hquotient, hremainder, dn_inj, storedLong]
        -- the remainder is moved last, to another register
        by_cases hj : j = dq
        · rw [if_neg fun h ↦ heq (h.symm.trans hj), if_pos hj, if_pos hj]
          rfl
        · rw [if_neg hj, if_neg hj]
          split_ifs <;> rfl
  · rw [beq_eq_false_iff_ne.mpr hlong, Bool.not_false, skipIf, if_pos rfl]
    simp only [if_neg hlong]
    refine ⟨_, hskip _ _, ?_, ?_, fun j ↦ ?_⟩
    · rw [WideCpu.get_setFlags, WideCpu.get_put64_ite reg_ne_zero, if_neg (by simp)]
    · exact beq_eq_false_iff_ne.mpr hlong
    · rw [WideCpu.get_setFlags, WideCpu.get_put64_ite reg_ne_zero, if_neg dn_ne_reg]

/-- The host divides a dividend of 64 bits, and the results are moved if the quotient is a
longword. -/
theorem run_divide64 (c : Alloc LongDivReg) (signed : Bool) (dq dr : Fin 8) {q : Reg}
    (hresult : q ≠ c.reg .result) (htmp2 : q ≠ c.reg .tmp2) (t : WideCpu) (x y : BitVec 64)
    (hx : x = t.get (dn dr) ++ t.get (dn dq))
    (hy : y = if signed then (t.get q).signExtend 64 else t.get64 q) :
    ∃ t', runForward WideOp.effect 0 (divide64 c signed (dn dq) (dn dr) q) t = (t', 0) ∧
      t'.get (c.reg .cc) = t.get (c.reg .cc) ∧
      t'.flags.z = (extend signed ((hostDiv signed x y).setWidth 32) == hostDiv signed x y) ∧
      ∀ j, t'.get (dn j) =
        if extend signed ((hostDiv signed x y).setWidth 32) = hostDiv signed x y then
          (storedLong dq dr ((hostDiv signed x y).setWidth 32)
            ((x - hostDiv signed x y * y).setWidth 32) j).getD (t.get (dn j))
        else t.get (dn j) := by
  obtain ⟨t₁, hrun₁, hdividend, hkeep₁⟩ := run_dividend c dq dr t
  have hq₁ : t₁.get64 q = t.get64 q := hkeep₁ q htmp2
  have hdn₁ : ∀ j, t₁.get64 (dn j) = t.get64 (dn j) := fun j ↦ hkeep₁ _ dn_ne_reg
  obtain ⟨t₂, hrun₂, hquot, hrem, hdn₂, hcc₂⟩ := run_wideQuotient c signed dq dr hresult t₁ y
    (by rw [hy, WideCpu.get, WideCpu.get, hq₁])
  rw [hdividend, ← hx] at hquot hrem
  obtain ⟨t₃, hrun₃, hcc₃, hz, hdn₃⟩ := run_moveLongs c signed dq dr t₂ _ _ hquot hrem
  refine ⟨t₃, ?_, hcc₃.trans (hcc₂.trans (congrArg (BitVec.setWidth 32) (hkeep₁ _ (by simp)))), hz,
    fun j ↦ ?_⟩
  · unfold divide64
    dsimp only
    rw [List.append_assoc, List.append_assoc, runForward_piece hrun₁, runForward_piece hrun₂, hrun₃]
  · have hj : t₂.get (dn j) = t.get (dn j) :=
      congrArg (BitVec.setWidth 32) ((hdn₂ j).trans (hdn₁ j))
    rw [hdn₃, hj]

/-! ### The emitter -/

/-- What the host makes of the operands: the quotient, the remainder, and whether they are moved. -/
structure HostQuotient where
  quotient : BitVec 32
  remainder : BitVec 32
  moved : Bool

/-- `y` is the divisor with the upper half of its register. -/
def hostQuotient (signed wide : Bool) (dq dr : BitVec 32) (y : BitVec 64) : HostQuotient :=
  if wide then
    let x := dr ++ dq
    let divisor := if signed then (y.setWidth 32).signExtend 64 else y
    let quotient := hostDiv signed x divisor
    { quotient := quotient.setWidth 32
      remainder := (x - quotient * divisor).setWidth 32
      moved := extend signed (quotient.setWidth 32) == quotient }
  else
    let divisor := y.setWidth 32
    { quotient := hostDiv signed dq divisor
      remainder := dq - hostDiv signed dq divisor * divisor
      moved := true }

/-- What the emitted code leaves when the divisor is not zero. -/
structure HostDivided (ctx : Context) (cc : Reg) (wide : Bool) (dq dr : Fin 8) (h : HostQuotient)
    (s s' : WideCpu) : Prop where
  registers : ∀ j, s'.get (dn j) =
    if h.moved then (storedLong dq dr h.quotient h.remainder j).getD (s.get (dn j))
    else s.get (dn j)
  ccr : s'.get cc = (longQuotientUpdate ctx.mask wide (!h.moved) (s'.get (dn dq)).msb
    (s'.get (dn dq) == 0)).apply (oldCcr ctx.ccLoaded cc s)

/-- The divisor as the host has it. -/
def Operand.host {src cc : Reg} (s : WideCpu) : Operand 32 false src cc → BitVec 64
  | .dataRegister i => s.get64 (dn i)
  | .fetched _ value _ => (value s).setWidth 64

theorem setWidth_host {src cc : Reg} (s : WideCpu) (operand : Operand 32 false src cc) :
    (operand.host s).setWidth 32 = operand.value s := by
  cases operand with
  | dataRegister i => exact (BitVec.setWidth_eq _).symm
  | fetched run value fetches =>
    rw [Operand.host, BitVec.setWidth_setWidth_of_le _ (by decide), BitVec.setWidth_eq]
    rfl

/-- The code in front of the test, which has the divisor in its register. -/
theorem run_loadDivisor (c : Alloc LongDivReg) (ctx : Context)
    (operand : Operand 32 false (c.reg .src) (c.reg .cc)) (s : WideCpu) :
    ∃ s', runForward WideOp.effect 0 (operand.read.1 ++ insns (Branch.flushPC ctx.pcRel) ++
        insns (modifyCC ctx.ccLoaded (c.reg .cc))) s = (s', 0) ∧
      s'.get64 operand.read.2 = operand.host s ∧ (∀ j, s'.get64 (dn j) = s.get64 (dn j)) ∧
      s'.get (c.reg .cc) = oldCcr ctx.ccLoaded (c.reg .cc) s ∧
      s'.get Branch.regPC = (operand.after s).get Branch.regPC + BitVec.ofInt 32 ctx.pcRel := by
  obtain ⟨s₁, hload, hdn₁, hcc₁, hafter, hreg⟩ := run_read operand s
  obtain ⟨s', hrun, hdn, hsrc, hcc, hpc⟩ :=
    run_prologue (c := c) (x := .src) (y := .cc) (by decide) hload ctx
  refine ⟨s', hrun, ?_, fun j ↦ (hdn j).trans (hdn₁ j), hcc.trans (hcc₁ _), hafter ▸ hpc⟩
  cases operand with
  | dataRegister i =>
    dsimp only at hreg
    rw [hreg, hdn, hdn₁]
    rfl
  | fetched run value fetches =>
    dsimp only at hreg
    rw [hreg.1, hsrc, hreg.2, BitVec.setWidth_eq]
    rfl

theorem read_ne (operand : Operand 32 false (c.reg .src) (c.reg .cc)) {x : LongDivReg}
    (hx : x ≠ .src) : operand.read.2 ≠ c.reg x := by
  cases operand with
  | dataRegister i => exact dn_ne_reg
  | fetched run value fetches => exact fun h ↦ hx (reg_inj.mp h).symm

/-- The test of the divisor. -/
theorem run_testLong (q : Reg) (n : ℕ) (s : WideCpu) :
    TrapOp.effect (.wide (.cbnz q n)) ⟨s, none, false⟩ =
      (⟨s, none, false⟩, skipIf (s.get q != 0) n) := rfl

/-- The division, and the moves. -/
theorem run_hostQuotient (c : Alloc LongDivReg) (signed wide : Bool) (dq dr : Fin 8) {q : Reg}
    (hq : ∀ x, x ≠ .src → q ≠ c.reg x) (t : WideCpu) {h : HostQuotient}
    (hh : h = hostQuotient signed wide (t.get (dn dq)) (t.get (dn dr)) (t.get64 q)) :
    ∃ t', runForward WideOp.effect 0
        (if wide then divide64 c signed (dn dq) (dn dr) q else divide32 c signed (dn dq) (dn dr) q)
        t = (t', 0) ∧
      t'.get (c.reg .cc) = t.get (c.reg .cc) ∧ (wide = true → t'.flags.z = h.moved) ∧
      ∀ j, t'.get (dn j) =
        if h.moved then (storedLong dq dr h.quotient h.remainder j).getD (t.get (dn j))
        else t.get (dn j) := by
  subst hh
  cases wide with
  | true =>
    obtain ⟨t', hrun, hcc, hz, hdn⟩ := run_divide64 c signed dq dr (hq .result (by decide))
      (hq .tmp2 (by decide)) t _ _ rfl rfl
    refine ⟨t', hrun, hcc, fun _ ↦ hz, fun j ↦ (hdn j).trans ?_⟩
    simp only [hostQuotient, if_true, beq_iff_eq]
    rfl
  | false =>
    obtain ⟨t', hrun, hcc, hdn⟩ := run_divide32 c signed dq dr (hq .tmp (by decide)) t
    exact ⟨t', hrun, hcc, fun hfalse ↦ absurd hfalse Bool.false_ne_true, hdn⟩

/-- With a divisor that is zero the exception is raised. -/
theorem emitDivusL_zero (c : Alloc LongDivReg) (ctx : Context) (signed wide : Bool)
    (dq dr : Fin 8) (operand : Operand 32 false (c.reg .src) (c.reg .cc)) (s : WideCpu)
    (hzero : operand.value s = 0) :
    ∃ s', execTrap (emitDivusL ctx c signed wide dq dr operand) s =
        ⟨s', some (zeroDivideTrap ctx ((operand.after s).get Branch.regPC)), true⟩ ∧
      ∀ j, s'.get64 (dn j) = s.get64 (dn j) := by
  obtain ⟨s₁, hload, hq, hdn, -, hpc⟩ := run_loadDivisor c ctx operand s
  have hwides := runForward_wides (operand.read.1 ++ insns (Branch.flushPC ctx.pcRel) ++
    insns (modifyCC ctx.ccLoaded (c.reg .cc))) 0 s none
  rw [hload] at hwides
  have hvalue : s₁.get operand.read.2 = 0 := by
    rw [WideCpu.get, hq, setWidth_host, hzero]
  unfold emitDivusL
  dsimp only
  rw [execTrap, List.append_assoc, List.append_assoc, runForward_piece hwides,
    List.singleton_append, runForward_step (run_testLong _ _ _), hvalue, bne_self_eq_false, skipIf,
    if_neg Bool.false_ne_true]
  obtain ⟨s', hrun, hkeep⟩ := run_zeroDivide ctx s₁ _ _ hpc
  exact ⟨s', congrArg Prod.fst hrun, fun j ↦ (hkeep j).trans (hdn j)⟩

theorem emitDivusL_host (c : Alloc LongDivReg) (ctx : Context) (signed wide : Bool)
    (dq dr : Fin 8) (operand : Operand 32 false (c.reg .src) (c.reg .cc)) (s : WideCpu)
    (hne : operand.value s ≠ 0) :
    ∃ s', execTrap (emitDivusL ctx c signed wide dq dr operand) s = ⟨s', none, false⟩ ∧
      HostDivided ctx (c.reg .cc) wide dq dr
        (hostQuotient signed wide (s.get (dn dq)) (s.get (dn dr)) (operand.host s)) s s' := by
  obtain ⟨s₁, hload, hq, hdn, hcc₁, -⟩ := run_loadDivisor c ctx operand s
  have hwides := runForward_wides (operand.read.1 ++ insns (Branch.flushPC ctx.pcRel) ++
    insns (modifyCC ctx.ccLoaded (c.reg .cc))) 0 s none
  rw [hload] at hwides
  have hvalue : s₁.get operand.read.2 ≠ 0 := by
    rwa [WideCpu.get, hq, setWidth_host]
  unfold emitDivusL
  dsimp only
  rw [execTrap, List.append_assoc, List.append_assoc, runForward_piece hwides,
    List.singleton_append, runForward_step (run_testLong _ _ _), bne_iff_ne.mpr hvalue, skipIf, if_pos rfl,
    Nat.add_sub_cancel, runForward_skip rfl, runForward_wides]
  have hregs : ∀ j, s₁.get (dn j) = s.get (dn j) := fun j ↦ congrArg (BitVec.setWidth 32) (hdn j)
  obtain ⟨s₂, hdivide, hcc₂, hz, hdn₂⟩ := run_hostQuotient c signed wide dq dr
    (fun _ hx ↦ read_ne operand hx) s₁ (h := hostQuotient signed wide (s.get (dn dq))
      (s.get (dn dr)) (operand.host s)) (by rw [hregs, hregs, hq])
  obtain ⟨s₃, hflags, hdn₃, hcc₃⟩ := run_longQuotientFlags c ctx wide dq s₂
  have hadvance := quiet_advancePC 0 (2 * (ctx.extWords + 1))
  rw [runForward_piece ((runForward_piece hdivide).trans hflags), runForward_insns]
  have hfinal : ∀ j, (execInsns (Branch.advancePC 0 (2 * (ctx.extWords + 1))).1 s₃).get (dn j) =
      s₂.get (dn j) := fun j ↦
    congrArg (BitVec.setWidth 32) ((hadvance.get64 (by simp) s₃).trans (hdn₃ j))
  refine ⟨_, rfl, fun j ↦ ?_, ?_⟩
  · rw [hfinal, hdn₂, hregs]
  · rw [hfinal, WideCpu.get, hadvance.get64 (by simp), ← WideCpu.get, hcc₃, hcc₂, hcc₁]
    cases wide with
    | true => rw [hz rfl]
    | false => rfl

end LongDivision

end Emu68.MulDiv

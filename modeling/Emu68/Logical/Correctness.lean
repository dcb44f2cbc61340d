import Emu68.Logical.Instructions

/-!
The emitted code of AND, OR and EOR computes the result and its flags, for operands of every size
and mode. Only with V and C requested and neither N nor Z they are left as they were.
-/

set_option autoImplicit false
set_option relaxedAutoImplicit false

namespace Emu68.Logical

open A64 Alu Lib MulDiv

variable {e : Emission LogicReg} {size : Size} {s s' t : WideCpu} {i j : Fin 8} {src : Reg}

/-! ### One operation -/

theorem insn_reg (op : Logic) (rd rn rm : Reg) (s : WideCpu) :
    s.insn (op.reg rd rn rm) = s.put rd (op.apply (s.get rn) (s.get rm)) := by
  cases op with
  | and => exact (WideCpu.insn_andReg rn rm .LSL 0).trans (by simp [Shift.apply, Logic.apply])
  | or => exact (WideCpu.insn_orrReg rn rm .LSL 0).trans (by simp [Shift.apply, Logic.apply])
  | eor => exact (WideCpu.insn_eorReg rn rm .LSL 0).trans (by simp [Shift.apply, Logic.apply])

theorem insn_ands (rd rn rm : Reg) (s : WideCpu) :
    s.insn (.andsReg rd rn rm .LSL 0) =
      (s.put rd (s.get rn &&& s.get rm)).setFlags (logicFlags (s.get rn &&& s.get rm)) :=
  (WideCpu.insn_andsReg rn rm .LSL 0).trans (by simp [Shift.apply])

theorem apply_comm {n : ℕ} (op : Logic) (x y : BitVec n) : op.apply x y = op.apply y x := by
  cases op
  · exact BitVec.and_comm x y
  · exact BitVec.or_comm x y
  · exact BitVec.xor_comm x y

/-- An operation is one on the parts. -/
theorem setWidth_apply {n : ℕ} (op : Logic) (x y : BitVec 32) :
    (op.apply x y).setWidth n = op.apply (x.setWidth n) (y.setWidth n) := by
  cases op
  · exact BitVec.setWidth_and
  · exact BitVec.setWidth_or
  · exact BitVec.setWidth_xor

theorem logicFlags_long (x : BitVec 32) :
    logicFlags x = resultNzcv (x.setWidth Size.long.bits) := by
  have h := logicFlags_shifted .long x
  rwa [show 32 - Size.long.bits = 0 from rfl, BitVec.shiftLeft_zero] at h

/-- The part is computed beside the register and inserted. -/
theorem run_insertResult (op : Logic) {value : BitVec size.bits} (s : WideCpu)
    (hvalue : (s.get src).setWidth size.bits = value) :
    let result := op.apply ((s.get (dn i)).setWidth size.bits) value
    let s' := execInsns (insertResult e size op src (dn i)) s
    e.view s' = (e.view s).setD i (replaceLow (s.get (dn i)) result) ∧
      s'.get (dn i) = replaceLow (s.get (dn i)) result := by
  have hcode : execInsns (insertResult e size op src (dn i)) s =
      (s.put (tmp e) (op.apply (s.get src) (s.get (dn i)))).put (dn i)
        (replaceLow (s.get (dn i)) (op.apply ((s.get (dn i)).setWidth size.bits) value)) := by
    show (s.insn (op.reg _ _ _)).insn (bfi _ _ 0 size.bits) = _
    have hbits := size.bits_range.1
    rw [insn_reg, WideCpu.insn_bfi_low _ (by omega), tmp, WideCpu.get_put reg_ne_zero,
      WideCpu.get_put_of_ne dn_ne_reg, setWidth_apply, hvalue, apply_comm op value]
  dsimp only
  rw [hcode]
  refine ⟨(view_setD _).trans ?_, WideCpu.get_put dn_ne_zero _⟩
  rw [tmp, e.view_put32_own]

/-! ### Registers -/

/-- What an instruction with a destination register leaves. -/
def intoRegister (op : Logic) (i : Fin 8) (operand : Source e .src size false) (s : WideCpu) :
    BitVec size.bits × Machine :=
  let result := op.apply ((s.get (dn i)).setWidth size.bits) (operand.value s)
  (result, (operand.after s).setD i (replaceLow (s.get (dn i)) result))

theorem emitAND_right_iff (i : Fin 8) (operand : DataSource e size) (s : WideCpu) :
    LogicRight e (intoRegister .and i operand.val s).1 (intoRegister .and i operand.val s).2
        (s.run (emitAND e size i operand)) ↔ StaleVC e (e.view s).ccr := by
  obtain ⟨t, hload, hloaded⟩ := run_load operand.val true s
  have hdn : t.get (dn i) = s.get (dn i) := get_dn_of_view hloaded.view
  have hinsert : ∀ src, (t.get src).setWidth size.bits = operand.val.value s →
      e.view (execInsns (insertResult e size .and src (dn i)) t) =
          (intoRegister .and i operand.val s).2 ∧
        ((execInsns (insertResult e size .and src (dn i)) t).get (dn i)).setWidth size.bits =
          (intoRegister .and i operand.val s).1 := by
    intro src hvalue
    obtain ⟨hview, hget⟩ := run_insertResult (i := i) .and t hvalue
    rw [hview, hget, hdn, hloaded.view]
    exact ⟨rfl, setWidth_replaceLow size.bits_range.2 _ _⟩
  have hccr : (intoRegister .and i operand.val s).2.ccr = (e.view s).ccr := after_ccr operand.val s
  rw [← hccr]
  unfold emitAND
  cases size with
  | byte =>
    obtain ⟨hview, hget⟩ := hinsert _ hloaded.value
    refine logicRight_iff ((runForward_piece hload).trans (runForward_insns _ t)) hview
      (fun h ↦ absurd h (by decide)) (fun _ ↦ hget) dn_ne_pc
  | word =>
    obtain ⟨hview, hget⟩ := hinsert _ hloaded.value
    refine logicRight_iff ((runForward_piece hload).trans (runForward_insns _ t)) hview
      (fun h ↦ absurd h (by decide)) (fun _ ↦ hget) dn_ne_pc
  | long =>
    have hsrc : t.get (operand.val.load true).2 = operand.val.value s :=
      (BitVec.setWidth_eq _).symm.trans hloaded.value
    have hresult : Logic.and.apply (t.get (dn i)) (t.get (operand.val.load true).2) =
        replaceLow (s.get (dn i)) (intoRegister .and i operand.val s).1 := by
      rw [hdn, hsrc]
      exact ((replaceLow_all _ _).trans
        (congrArg (Logic.and.apply · _) (BitVec.setWidth_eq _))).symm
    have hview : e.view (t.put (dn i)
        (Logic.and.apply (t.get (dn i)) (t.get (operand.val.load true).2))) =
          (intoRegister .and i operand.val s).2 := by
      rw [view_setD, hresult, hloaded.view]
      rfl
    by_cases h0 : updateMask e = 0
    · refine logicRight_iff ((runForward_piece hload).trans ?_) hview (fun _ hne ↦ absurd h0 hne)
        (fun h ↦ absurd h (by decide)) dn_ne_pc
      rw [runForward_insns, if_neg (not_not.mpr h0)]
      exact congrArg (·, 0) (insn_reg .and _ _ _ t)
    · refine logicRight_iff (show runForward WideOp.effect 0 _ s =
            ((t.put (dn i) (Logic.and.apply (t.get (dn i))
              (t.get (operand.val.load true).2))).setFlags (logicFlags
                (Logic.and.apply (t.get (dn i)) (t.get (operand.val.load true).2))), 0) from
          (runForward_piece hload).trans ?_) ((e.view_setFlags _).trans hview) (fun _ _ ↦ ?_)
        (fun h ↦ absurd h (by decide)) dn_ne_pc
      · rw [runForward_insns, if_pos h0]
        exact congrArg (·, 0) (insn_ands _ _ _ t)
      · rw [WideCpu.flags_setFlags, hresult, logicFlags_long]
        exact congrArg resultNzcv (setWidth_replaceLow (Nat.le_refl _) _ _)

theorem emitEOR_right_iff (i j : Fin 8) (s : WideCpu) :
    LogicRight e (intoRegister .eor i (.data j : Source e .src size false) s).1
        (intoRegister .eor i (.data j : Source e .src size false) s).2
        (s.run (emitEOR e size i j)) ↔ StaleVC e (e.view s).ccr := by
  have hinsert : e.view (execInsns (insertResult e size .eor (dn j) (dn i)) s) =
        (intoRegister .eor i (.data j : Source e .src size false) s).2 ∧
      ((execInsns (insertResult e size .eor (dn j) (dn i)) s).get (dn i)).setWidth size.bits =
        (intoRegister .eor i (.data j : Source e .src size false) s).1 := by
    obtain ⟨hview, hget⟩ := run_insertResult (e := e) (i := i) .eor s
      (show (s.get (dn j)).setWidth size.bits = _ from rfl)
    rw [hview, hget]
    exact ⟨rfl, setWidth_replaceLow size.bits_range.2 _ _⟩
  unfold emitEOR
  cases size with
  | byte =>
    exact logicRight_iff (runForward_insns (insertResult e .byte .eor (dn j) (dn i)) s) hinsert.1
      (fun h ↦ absurd h (by decide)) (fun _ ↦ hinsert.2) dn_ne_pc
  | word =>
    exact logicRight_iff (runForward_insns (insertResult e .word .eor (dn j) (dn i)) s) hinsert.1
      (fun h ↦ absurd h (by decide)) (fun _ ↦ hinsert.2) dn_ne_pc
  | long =>
    have hresult : Logic.eor.apply (s.get (dn i)) (s.get (dn j)) = replaceLow (s.get (dn i))
        (intoRegister .eor i (.data j : Source e .src .long false) s).1 := by
      refine ((replaceLow_all _ _).trans ?_).symm
      exact congrArg₂ Logic.eor.apply (BitVec.setWidth_eq _) (BitVec.setWidth_eq _)
    refine logicRight_iff (show runForward WideOp.effect 0
          (insns [Logic.eor.reg (dn i) (dn i) (dn j)]) s =
        (s.put (dn i) (Logic.eor.apply (s.get (dn i)) (s.get (dn j))), 0) from ?_) ?_
      (fun h ↦ absurd h (by decide))
      (fun _ ↦ ?_) dn_ne_pc
    · rw [runForward_insns]
      exact congrArg (·, 0) (insn_reg .eor _ _ _ s)
    · rw [view_setD, hresult]
      rfl
    · rw [WideCpu.get_put dn_ne_zero, hresult]
      exact setWidth_replaceLow (Nat.le_refl _) _ _

/-- A source that is extended with zeros leaves the upper part alone. -/
theorem or_extended {n : ℕ} (old src : BitVec 32) {value : BitVec n}
    (hsrc : src = value.setWidth 32) :
    src ||| old = replaceLow old (Logic.or.apply (old.setWidth n) value) := by
  refine BitVec.eq_of_getLsbD_eq fun k hk ↦ ?_
  rw [getLsbD_replaceLow, hsrc, BitVec.getLsbD_or, BitVec.getLsbD_setWidth, decide_eq_true hk,
    Bool.true_and]
  split_ifs with hin
  · rw [Logic.apply, BitVec.getLsbD_or, BitVec.getLsbD_setWidth, decide_eq_true hin, Bool.true_and,
      Bool.true_and, Bool.or_comm]
  · rw [BitVec.getLsbD_of_ge value k (Nat.le_of_not_lt hin), Bool.false_or]

theorem insn_uxt (hsize : size ≠ .long) (rd rn : Reg) (s : WideCpu) :
    execInsns (uxt size rd rn) s = s.put rd (((s.get rn).setWidth size.bits).setWidth 32) := by
  cases size with
  | byte => exact WideCpu.insn_uxtb rn
  | word => exact WideCpu.insn_uxth rn
  | long => exact absurd rfl hsize

/-- OR of a part: the operand is extended when it comes from a register. -/
theorem run_orPart {operand : DataSource e size} (hsize : size ≠ .long)
    (hloaded : Loaded operand.val true (operand.val.load true).2 s t) :
    let (extend, src) := orSource e size (operand.val.load true).2 operand.val
    e.view (execInsns (extend ++ [Logic.or.reg (dn i) src (dn i)]) t) =
        (intoRegister .or i operand.val s).2 ∧
      ((execInsns (extend ++ [Logic.or.reg (dn i) src (dn i)]) t).get (dn i)).setWidth size.bits =
        (intoRegister .or i operand.val s).1 := by
  have hdn : t.get (dn i) = s.get (dn i) := get_dn_of_view hloaded.view
  -- the operation, once the source is extended
  have hdone : ∀ (u : WideCpu) (src : Reg), e.view u = operand.val.after s →
      u.get (dn i) = s.get (dn i) → u.get src = (operand.val.value s).setWidth 32 →
      e.view (u.insn (Logic.or.reg (dn i) src (dn i))) = (intoRegister .or i operand.val s).2 ∧
      ((u.insn (Logic.or.reg (dn i) src (dn i))).get (dn i)).setWidth size.bits =
        (intoRegister .or i operand.val s).1 := by
    intro u src hview hget hsrc
    have hresult := or_extended (s.get (dn i)) (u.get src) hsrc
    have hvalue : Logic.or.apply (u.get src) (u.get (dn i)) = replaceLow (s.get (dn i))
        (intoRegister .or i operand.val s).1 := by
      rw [hget]
      exact hresult
    rw [insn_reg, view_setD, hview, hvalue, WideCpu.get_put dn_ne_zero]
    exact ⟨rfl, setWidth_replaceLow size.bits_range.2 _ _⟩
  have hplain : operand.val.isRegister = false →
      e.view (t.insn (Logic.or.reg (dn i) (operand.val.load true).2 (dn i))) =
        (intoRegister .or i operand.val s).2 ∧
      ((t.insn (Logic.or.reg (dn i) (operand.val.load true).2 (dn i))).get (dn i)).setWidth
        size.bits = (intoRegister .or i operand.val s).1 := fun hnot ↦
    hdone t _ hloaded.view hdn (hloaded.extended (.inl hnot))
  have hextended : e.view ((execInsns (uxt size (tmp e) (operand.val.load true).2) t).insn
        (Logic.or.reg (dn i) (tmp e) (dn i))) = (intoRegister .or i operand.val s).2 ∧
      (((execInsns (uxt size (tmp e) (operand.val.load true).2) t).insn
        (Logic.or.reg (dn i) (tmp e) (dn i))).get (dn i)).setWidth size.bits =
          (intoRegister .or i operand.val s).1 := by
    refine hdone _ (tmp e) ?_ ?_ ?_
    · rw [insn_uxt hsize, tmp, e.view_put32_own, hloaded.view]
    · rw [insn_uxt hsize, tmp, WideCpu.get_put_of_ne dn_ne_reg, hdn]
    · rw [insn_uxt hsize, tmp, WideCpu.get_put reg_ne_zero, hloaded.value]
  obtain ⟨operand, hoperand⟩ := operand
  cases operand with
  | data k =>
    have hsource : orSource e size (Source.load true (.data k : Source e .src size false)).2
        (.data k) = (uxt size (tmp e) (dn k), tmp e) := if_neg hsize
    rw [hsource]
    dsimp only
    rw [execInsns, List.foldl_append]
    exact hextended
  | address k => exact absurd rfl (hoperand k)
  | indirect k => exact hplain rfl
  | postIncrement k => exact hplain rfl
  | preDecrement k => exact hplain rfl
  | fetched run value fetches => exact hplain rfl

theorem orSource_long (src : Reg) (operand : Source e .src .long false) :
    orSource e .long src operand = ([], src) := by
  cases operand <;> rfl

theorem emitOR_right_iff (i : Fin 8) (operand : DataSource e size) (s : WideCpu) :
    LogicRight e (intoRegister .or i operand.val s).1 (intoRegister .or i operand.val s).2
        (s.run (emitOR e size i operand)) ↔ StaleVC e (e.view s).ccr := by
  obtain ⟨t, hload, hloaded⟩ := run_load operand.val true s
  have hccr : (intoRegister .or i operand.val s).2.ccr = (e.view s).ccr := after_ccr operand.val s
  rw [← hccr]
  by_cases hsize : size = .long
  · subst hsize
    have hdn : t.get (dn i) = s.get (dn i) := get_dn_of_view hloaded.view
    have hsrc : t.get (operand.val.load true).2 = operand.val.value s :=
      (BitVec.setWidth_eq _).symm.trans hloaded.value
    have hresult : Logic.or.apply (t.get (dn i)) (t.get (operand.val.load true).2) =
        replaceLow (s.get (dn i)) (intoRegister .or i operand.val s).1 := by
      rw [hdn, hsrc]
      exact ((replaceLow_all _ _).trans
        (congrArg (Logic.or.apply · _) (BitVec.setWidth_eq _))).symm
    unfold emitOR
    dsimp only
    rw [orSource_long, if_pos rfl]
    refine logicRight_iff (show runForward WideOp.effect 0 _ s = (t.put (dn i)
        (Logic.or.apply (t.get (dn i)) (t.get (operand.val.load true).2)), 0) from
      (runForward_piece hload).trans ?_) ?_ (fun h ↦ absurd h (by decide)) (fun _ ↦ ?_) dn_ne_pc
    · rw [runForward_insns]
      exact congrArg (·, 0) (insn_reg .or _ _ _ t)
    · rw [view_setD, hresult, hloaded.view]
      rfl
    · rw [WideCpu.get_put dn_ne_zero, hresult]
      exact setWidth_replaceLow (Nat.le_refl _) _ _
  · have hpart := run_orPart (i := i) hsize hloaded
    unfold emitOR
    dsimp only at hpart ⊢
    rw [if_neg hsize]
    exact logicRight_iff ((runForward_piece hload).trans (runForward_insns _ t)) hpart.1
      (fun h ↦ absurd h (by decide)) (fun _ ↦ hpart.2) dn_ne_pc

/-! ### Memory -/

/-- What an instruction with a destination in memory leaves. -/
def intoMemory (op : Logic) (j : Fin 8) (target : Target (e.own.reg .ea) e.cc) (s : WideCpu) :
    BitVec size.bits × Machine :=
  let result := op.apply (target.value size s) ((s.get (dn j)).setWidth size.bits)
  (result, (target.after size s).setMemory
    (Lib.store s.memory (target.address size s) size.bytes result.toNat))

theorem emitToMemory_right_iff (op : Logic) (j : Fin 8) (target : Target (e.own.reg .ea) e.cc)
    (s : WideCpu) :
    LogicRight e (intoMemory op j target s : BitVec size.bits × Machine).1
        (intoMemory op j target s : BitVec size.bits × Machine).2
        (s.run (emitToMemory e size op j target)) ↔
      StaleVC e (e.view s).ccr := by
  obtain ⟨result, hresult⟩ : ∃ result, result =
      (intoMemory op j target s : BitVec size.bits × Machine).1 := ⟨_, rfl⟩
  have htmp : ∀ (t : WideCpu) (value : BitVec 32),
      Changes ([LogicReg.tmp].map e.own.reg) t (t.put (tmp e) value) := by
    refine fun t value ↦ ⟨fun r hr ↦ ?_, WideCpu.memory_put64 .., ?_⟩
    · exact WideCpu.get64_put64_of_ne (fun heq ↦ hr (List.mem_singleton.mpr heq)) _
    · show (t.put64 (tmp e) _).simd = t.simd
      unfold WideCpu.put64
      split_ifs <;> rfl
  -- the operation in the register of the operand
  have hcompute : ∀ t : WideCpu, t.get (e.own.reg .tmp) = (target.value size s).setWidth 32 →
      (∀ i, t.get (dn i) = s.get (dn i)) →
      ∃ t', runForward WideOp.effect 0 (insns [if op = .and ∧ size = .long ∧ updateMask e ≠ 0 then
          .andsReg (tmp e) (tmp e) (dn j) .LSL 0 else op.reg (tmp e) (tmp e) (dn j)]) t = (t', 0) ∧
        Changes ([LogicReg.tmp].map e.own.reg) t t' ∧
        (t'.get (e.own.reg .tmp)).setWidth size.bits = result ∧
        ((op = .and ∧ size = .long → updateMask e ≠ 0 → t'.flags = resultNzcv result) ∧
          (t'.get (e.own.reg .tmp)).setWidth size.bits = result) := by
    intro t hvalue hdn
    have hpart : (op.apply (t.get (tmp e)) (t.get (dn j))).setWidth size.bits = result := by
      rw [setWidth_apply, tmp, hvalue, hdn, BitVec.setWidth_setWidth_of_le _ size.bits_range.2,
        BitVec.setWidth_eq, hresult]
      rfl
    by_cases hset : op = .and ∧ size = .long ∧ updateMask e ≠ 0
    · obtain ⟨rfl, rfl, h0⟩ := hset
      have hrun : execInsns [.andsReg (tmp e) (tmp e) (dn j) .LSL 0] t =
          (t.put (tmp e) (Logic.and.apply (t.get (tmp e)) (t.get (dn j)))).setFlags
            (logicFlags (Logic.and.apply (t.get (tmp e)) (t.get (dn j)))) := insn_ands _ _ _ t
      have hget : ((execInsns [.andsReg (tmp e) (tmp e) (dn j) .LSL 0] t).get
          (e.own.reg .tmp)).setWidth Size.long.bits = result := by
        rw [hrun, WideCpu.get_setFlags, tmp, WideCpu.get_put reg_ne_zero]
        exact hpart
      rw [if_pos ⟨rfl, rfl, h0⟩]
      refine ⟨_, runForward_insns _ t, ?_, hget, fun _ _ ↦ ?_, hget⟩
      · obtain ⟨hget64, hmemory, hsimd⟩ := htmp t (Logic.and.apply (t.get (tmp e)) (t.get (dn j)))
        rw [hrun]
        exact ⟨hget64, hmemory, hsimd⟩
      · rw [hrun, WideCpu.flags_setFlags, logicFlags_long, hpart]
    · have hrun : execInsns [op.reg (tmp e) (tmp e) (dn j)] t =
          t.put (tmp e) (op.apply (t.get (tmp e)) (t.get (dn j))) := insn_reg op _ _ _ t
      have hget : ((execInsns [op.reg (tmp e) (tmp e) (dn j)] t).get
          (e.own.reg .tmp)).setWidth size.bits = result := by
        rw [hrun, tmp, WideCpu.get_put reg_ne_zero]
        exact hpart
      rw [if_neg hset]
      refine ⟨_, runForward_insns _ t, ?_, hget, fun h h0 ↦ absurd ⟨h.1, h.2, h0⟩ hset, hget⟩
      rw [hrun]
      exact htmp t _
  obtain ⟨s₁, hrun, hview, hflags, htest⟩ := run_modify target (by decide) (by decide)
    (P := fun flags value ↦ (op = .and ∧ size = .long → updateMask e ≠ 0 →
      flags = resultNzcv result) ∧ value.setWidth size.bits = result) hcompute
  have hexpected : e.view s₁ = (intoMemory op j target s : BitVec size.bits × Machine).2 := by
    rw [hview, hresult]
    rfl
  have hccr : (intoMemory op j target s : BitVec size.bits × Machine).2.ccr = (e.view s).ccr :=
    target_ccr target s
  rw [← hccr, ← hresult]
  unfold emitToMemory
  exact logicRight_iff hrun hexpected (fun h ↦ hflags (of_decide_eq_true h)) (fun _ ↦ htest)
    reg_ne_pc

/-! ### Instructions -/

inductive Insn (e : Emission LogicReg) where
  | and (size : Size) (i : Fin 8) (operand : DataSource e size)
  | or (size : Size) (i : Fin 8) (operand : DataSource e size)
  | eor (size : Size) (i j : Fin 8)
  | toMemory (op : Logic) (size : Size) (j : Fin 8) (target : Target (e.own.reg .ea) e.cc)

namespace Insn

variable {e : Emission LogicReg}

def code : Insn e → List WideOp
  | .and size i operand => emitAND e size i operand
  | .or size i operand => emitOR e size i operand
  | .eor size i j => emitEOR e size i j
  | .toMemory op size j target => emitToMemory e size op j target

def bits : Insn e → ℕ
  | .and size _ _ => size.bits
  | .or size _ _ => size.bits
  | .eor size _ _ => size.bits
  | .toMemory _ size _ _ => size.bits

/-- The result, and the machine with it in its place. -/
def outcome (s : WideCpu) : (insn : Insn e) → BitVec insn.bits × Machine
  | .and _ i operand => intoRegister .and i operand.val s
  | .or _ i operand => intoRegister .or i operand.val s
  | .eor size i j => intoRegister .eor i (.data j : Source e .src size false) s
  | .toMemory op _ j target => intoMemory op j target s

theorem outcome_ccr (insn : Insn e) (s : WideCpu) : (insn.outcome s).2.ccr = (e.view s).ccr := by
  cases insn with
  | and size i operand => exact after_ccr operand.val s
  | or size i operand => exact after_ccr operand.val s
  | eor size i j => rfl
  | toMemory op size j target => exact target_ccr target s

end Insn

/-- The emitted code of an instruction leaves what the instruction leaves, unless just V and C are
requested and one of them was set. -/
theorem insn_right_iff {e : Emission LogicReg} (insn : Insn e) (s : WideCpu) :
    LogicRight e (insn.outcome s).1 (insn.outcome s).2 (s.run insn.code) ↔
      StaleVC e (e.view s).ccr := by
  cases insn with
  | and size i operand => exact emitAND_right_iff i operand s
  | or size i operand => exact emitOR_right_iff i operand s
  | eor size i j => exact emitEOR_right_iff i j s
  | toMemory op size j target => exact emitToMemory_right_iff op j target s

/-- With more than V and C requested, or less, the code of an instruction is right. -/
theorem Insn.right_of_notVC {e : Emission LogicReg} (insn : Insn e) (h : updateMask e ≠ srVC)
    (s : WideCpu) : LogicRight e (insn.outcome s).1 (insn.outcome s).2 (s.run insn.code) := by
  have hstale : ∀ old, StaleVC e old := fun _ hVC ↦ absurd hVC h
  cases insn with
  | and size i operand => exact (emitAND_right_iff i operand s).mpr (hstale _)
  | or size i operand => exact (emitOR_right_iff i operand s).mpr (hstale _)
  | eor size i j => exact (emitEOR_right_iff i j s).mpr (hstale _)
  | toMemory op size j target => exact (emitToMemory_right_iff op j target s).mpr (hstale _)

end Emu68.Logical

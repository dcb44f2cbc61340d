import Emu68.MulDiv.Multiplication

/-!
MULS.L and MULU.L. The host register of the low half receives the product of 64 bits, and the
overflow of a product of 32 bits is told from its upper half.
-/

set_option autoImplicit false
set_option relaxedAutoImplicit false

namespace Emu68.MulDiv

open A64 Alu Lib

/-! ### The upper half -/

/-- What the upper half is when the product fits: copies of the sign, or zeros. -/
def expectedHigh (signed : Bool) (p : BitVec 64) : BitVec 64 :=
  if signed && (p.setWidth 32).msb then 0xffffffff#64 else 0#64

theorem low_msb (p : BitVec 64) : (p.setWidth 32).msb = decide (2 ^ 31 ≤ p.toNat % 2 ^ 32) := by
  rw [BitVec.msb_eq_decide, BitVec.toNat_setWidth]

theorem expectedHigh_signed_iff (p : BitVec 64) :
    expectedHigh true p = p >>> 32 ↔ Fits true 32 p.toInt := by
  have hp := p.isLt
  have hshift : (p >>> 32).toNat = p.toNat / 2 ^ 32 := by
    rw [BitVec.toNat_ushiftRight, Nat.shiftRight_eq_div_pow]
  rw [← BitVec.toNat_inj, hshift, expectedHigh, Bool.true_and, low_msb, Fits, if_pos rfl,
    BitVec.toInt_eq_toNat_cond]
  by_cases hlow : 2 ^ 31 ≤ p.toNat % 2 ^ 32
  · rw [decide_eq_true hlow, if_pos rfl, BitVec.toNat_ofNat]
    split_ifs with hhalf <;> omega
  · rw [decide_eq_false hlow, if_neg Bool.false_ne_true, BitVec.toNat_ofNat]
    split_ifs with hhalf <;> omega

theorem expectedHigh_unsigned_iff (p : BitVec 64) :
    expectedHigh false p = p >>> 32 ↔ Fits false 32 p.toNat := by
  have hp := p.isLt
  have hshift : (p >>> 32).toNat = p.toNat / 2 ^ 32 := by
    rw [BitVec.toNat_ushiftRight, Nat.shiftRight_eq_div_pow]
  rw [← BitVec.toNat_inj, hshift, expectedHigh, Bool.false_and, if_neg Bool.false_ne_true, Fits,
    if_neg Bool.false_ne_true, BitVec.toNat_ofNat]
  omega

variable (signed : Bool) (x y : BitVec 32)

/-- The product of two longwords does not fit into one. -/
def overflows : Bool := !decide (Fits signed 32 (number signed x * number signed y))

theorem expectedHigh_product : (expectedHigh signed (product signed 64 x y) ==
    product signed 64 x y >>> 32) = !overflows signed x y := by
  rw [overflows, Bool.not_not, Bool.eq_iff_iff, beq_iff_eq, decide_eq_true_eq]
  cases signed with
  | true =>
    have hlow : -2 ^ 62 ≤ x.toInt * y.toInt := BitVec.le_toInt_mul_toInt
    have hhigh : x.toInt * y.toInt ≤ 2 ^ 62 := BitVec.toInt_mul_toInt_le
    rw [expectedHigh_signed_iff]
    have hvalue : (product true 64 x y).toInt = number true x * number true y := by
      show (BitVec.ofInt 64 (x.toInt * y.toInt)).toInt = x.toInt * y.toInt
      rw [BitVec.toInt_ofInt, Int.bmod_eq_of_le] <;> omega
    rw [hvalue]
  | false =>
    have hx := x.isLt
    have hy := y.isLt
    have hlt : x.toNat * y.toNat < 2 ^ 64 := by nlinarith
    rw [expectedHigh_unsigned_iff]
    have hvalue : ((product false 64 x y).toNat : ℤ) = number false x * number false y := by
      show ((BitVec.ofInt 64 ((x.toNat : ℤ) * (y.toNat : ℤ))).toNat : ℤ) = _
      rw [← Nat.cast_mul, BitVec.ofInt_natCast, BitVec.toNat_ofNat, Nat.mod_eq_of_lt hlt,
        Nat.cast_mul]
      rfl
    rw [hvalue]

/-! ### The flags -/

theorem long_fits : ∀ mask : Mask, mask.toNat < 16 → mask ≠ srVC → mask ≠ 0 →
    ∀ n z v : Bool, (n && z) = false → (mask &&& srV = 0 ∨ v = false) →
      FlagUpdate.Fits mask (resultFlags n z v) (Caller.logic.update mask ⟨n, z, false, false⟩) := by
  decide +kernel

theorem long_fits_overflow : ∀ mask : Mask, mask.toNat < 16 → mask ≠ srVC →
    mask &&& srV ≠ 0 → ∀ n z v : Bool, (n && z) = false →
      FlagUpdate.Fits mask (resultFlags n z v)
        ((Caller.logic.update mask ⟨n, z, false, false⟩).andThen
          ((clearU srValt).andThen (setU srValt v))) := by
  decide +kernel

theorem overflow_update_bits : ∀ v : Bool,
    ((clearU srValt).andThen (setU srValt v)).keep ||| 1#32 = BitVec.allOnes 32 ∧
      ((clearU srValt).andThen (setU srValt v)).keep.getLsbD 0 = false ∧
      ((clearU srValt).andThen (setU srValt v)).set = if v then 1#32 else 0#32 := by
  decide +kernel

section Long

variable {signed} {a : Alloc MulReg} {ctx : Context} {dl : Fin 8} {dh : Option (Fin 8)}

/-- V from the upper half of the product. -/
theorem run_longOverflow (signed : Bool) (a : Alloc MulReg) (dl : Fin 8) (s : WideCpu) :
    ∃ s', runForward WideOp.effect 0 (longOverflow a signed (dn dl)) s = (s', 0) ∧
      (∀ j, s'.get64 (dn j) = s.get64 (dn j)) ∧
      s'.get (a.reg .cc) = ((clearU srValt).andThen (setU srValt
        !(expectedHigh signed (s.get64 (dn dl)) == s.get64 (dn dl) >>> 32))).apply
          (s.get (a.reg .cc)) := by
  have halloc : Allocated (a.reg .cc) (a.reg .tmp2) := allocated (by decide)
  obtain ⟨hclearFlags, hclear⟩ := execInsns_computes (emitClearFlags_computes halloc srValt)
    reg_ne_zero s
  have hquiet : Quiet [a.reg .cc, a.reg .tmp2] (emitClearFlags (a.reg .cc) (a.reg .tmp2) srValt) :=
    quiet_emitClearFlags srValt
  -- the expected upper half is put in a register, and compared
  have hcompare : ∀ t : WideCpu, ∃ t', runForward WideOp.effect 0
      ((if signed then [cmnReg (dn dl) 31 .LSL 0, csetm (a.reg .tmp) ccMI]
        else [.insn (.movImmedU16 (a.reg .tmp) 0 0)]) ++
          [cmp64Reg (a.reg .tmp) (dn dl) .LSR 32]) t = (t', 0) ∧
      t'.flags.z = (expectedHigh signed (t.get64 (dn dl)) == t.get64 (dn dl) >>> 32) ∧
      (∀ j, t'.get64 (dn j) = t.get64 (dn j)) ∧ t'.get (a.reg .cc) = t.get (a.reg .cc) := by
    intro t
    cases signed with
    | true =>
      refine ⟨_, rfl, ?_, fun j ↦ ?_, ?_⟩
      · have hpl : ∀ f : Nzcv, Cond.holds (ccMI ^^^ 1) f = !f.n := fun _ ↦ rfl
        simp only [cmnReg, csetm, cmp64Reg, WideOp.effect, if_true, WideCpu.put_zero, WideCpu.get_zero, WideCpu.put64_zero, WideCpu.flags_setFlags,
          WideCpu.get64_put_ite reg_ne_zero, WideCpu.get64_setFlags, dn_ne_reg, if_false, hpl,
          expectedHigh, subFlags64, addFlags, Shift.apply, Shift.apply64, BitVec.shiftLeft_zero,
          BitVec.add_zero, Bool.true_and]
        show (_ == _) = _
        rw [WideCpu.get]
        cases ((t.get64 (dn dl)).setWidth 32).msb <;> rfl
      · exact WideCpu.get64_put64_of_ne dn_ne_reg _
      · exact WideCpu.get_put_of_ne (by simp) _
    | false =>
      refine ⟨_, rfl, ?_, fun j ↦ ?_, ?_⟩
      · simp only [cmp64Reg, WideOp.effect, Bool.false_eq_true, if_false, WideCpu.insn_movImmedU16, WideCpu.put64_zero, WideCpu.flags_setFlags,
          WideCpu.get64_put_ite reg_ne_zero, dn_ne_reg, expectedHigh, subFlags64, Shift.apply64,
          Bool.false_and, if_true]
        rfl
      · show ((t.insn (.movImmedU16 (a.reg .tmp) 0 0)).setFlags _).get64 _ = _
        rw [WideCpu.get64_setFlags, WideCpu.insn_movImmedU16, WideCpu.put,
          WideCpu.get64_put64_of_ne dn_ne_reg]
      · show ((t.insn (.movImmedU16 (a.reg .tmp) 0 0)).setFlags _).get _ = _
        rw [WideCpu.get_setFlags, WideCpu.insn_movImmedU16, WideCpu.get_put_of_ne (by simp)]
  obtain ⟨t, hrun, hz, hdn, hcc⟩ := hcompare (execInsns _ s)
  have hne : srValt ≠ 31 := by decide
  obtain ⟨-, hset⟩ := execInsns_computes (emitSetFlagsConditional_computes halloc hne ccNE)
    reg_ne_zero t
  have hquiet' : Quiet [a.reg .cc, a.reg .tmp2]
      (emitSetFlagsConditional (a.reg .cc) (a.reg .tmp2) srValt ccNE) :=
    quiet_emitSetFlagsConditional srValt ccNE
  refine ⟨execInsns (emitSetFlagsConditional (a.reg .cc) (a.reg .tmp2) srValt ccNE) t, ?_,
    fun j ↦ ?_, ?_⟩
  · rw [longOverflow, List.append_assoc, List.append_assoc, runForward_piece (runForward_insns _ s),
      ← List.append_assoc, runForward_piece hrun, runForward_insns]
  · rw [hquiet'.get64 (by simp), hdn, hquiet.get64 (by simp)]
  · rw [hset, hcc, hclear, FlagUpdate.apply_andThen, show Cond.holds ccNE t.flags = !t.flags.z from rfl,
      hz, hquiet.get64 (by simp)]

/-- The flags of a product of longwords: those of 64 bits, or those of the low half. -/
def longFlags (signed : Bool) (x y : BitVec 32) (wide : Bool) : Flag → FlagValue :=
  let p := product signed 64 x y
  if wide then productFlags p false else productFlags (p.setWidth 32) (overflows signed x y)

/-- What the emitted code of MULS.L or MULU.L leaves. If both halves have the same register, it
holds the low half. -/
structure LongProduct (ctx : Context) (cc : Reg) (signed : Bool) (dl : Fin 8) (dh : Option (Fin 8))
    (y : BitVec 32) (s s' : WideCpu) : Prop where
  low : s'.get (dn dl) = (product signed 64 (s.get (dn dl)) y).setWidth 32
  high : ∀ i, dh = some i → i ≠ dl →
    s'.get (dn i) = (product signed 64 (s.get (dn dl)) y >>> 32).setWidth 32
  others : ∀ j, j ≠ dl → dh ≠ some j → s'.get64 (dn j) = s.get64 (dn j)
  ccr : CcrCorrect ctx.mask (longFlags signed (s.get (dn dl)) y dh.isSome)
    (oldCcr ctx.ccLoaded cc s) (ccrAfter ctx cc s')

/-- With just V and C requested C has to be clear, and V, too, if the product has 64 bits. -/
def LongStale (ctx : Context) (wide : Bool) (old : BitVec 32) : Prop :=
  ctx.mask = srVC →
    (wide = true → old.getLsbD Flag.v.bit = false) ∧ old.getLsbD Flag.c.bit = false

/-- The multiplication, and the copy of the upper half. -/
theorem run_multiply (signed : Bool) (a : Alloc MulReg) (dl : Fin 8) (dh : Option (Fin 8))
    {src : Reg} (y : BitVec 32) (s : WideCpu) (hsrc : s.get src = y) :
    ∃ s', runForward WideOp.effect 0
        ([if signed then WideOp.smull (dn dl) (dn dl) src else .umull (dn dl) (dn dl) src] ++
          match dh with
          | some dh => if dn dh ≠ dn dl then [WideOp.add64Reg (dn dh) 31 (dn dl) .LSR 32] else []
          | none => []) s = (s', 0) ∧
      s'.get64 (dn dl) = product signed 64 (s.get (dn dl)) y ∧
      (∀ i, dh = some i → i ≠ dl → s'.get64 (dn i) = product signed 64 (s.get (dn dl)) y >>> 32) ∧
      (∀ j, j ≠ dl → dh ≠ some j → s'.get64 (dn j) = s.get64 (dn j)) ∧
      ∀ loaded, oldCcr loaded (a.reg .cc) s' = oldCcr loaded (a.reg .cc) s := by
  have hfirst : WideOp.effect
      (if signed then .smull (dn dl) (dn dl) src else .umull (dn dl) (dn dl) src) s =
        (s.put64 (dn dl) (product signed 64 (s.get (dn dl)) y), 0) := by
    cases signed with
    | true =>
      show (s.put64 _ _, 0) = _
      rw [hsrc, product_signed]
    | false =>
      show (s.put64 _ _, 0) = _
      rw [hsrc, product_unsigned]
  rw [List.singleton_append, runForward_step hfirst]
  have hlow : (s.put64 (dn dl) (product signed 64 (s.get (dn dl)) y)).get64 (dn dl) =
      product signed 64 (s.get (dn dl)) y := WideCpu.get64_put64 dn_ne_zero _
  have hone : ∀ j, j ≠ dl →
      (s.put64 (dn dl) (product signed 64 (s.get (dn dl)) y)).get64 (dn j) = s.get64 (dn j) :=
    fun j hj ↦ WideCpu.get64_put64_of_ne (by simpa using hj) _
  have hcc : ∀ loaded, oldCcr loaded (a.reg .cc) (s.put64 (dn dl)
      (product signed 64 (s.get (dn dl)) y)) = oldCcr loaded (a.reg .cc) s :=
    fun loaded ↦ oldCcr_put reg_ne_dn loaded _ s
  cases dh with
  | none => exact ⟨_, rfl, hlow, fun i hi ↦ absurd hi.symm (Option.some_ne_none i),
      fun j hj _ ↦ hone j hj, hcc⟩
  | some i =>
    dsimp only
    by_cases hi : i = dl
    · rw [if_neg (not_not_intro (by rw [hi]))]
      refine ⟨_, rfl, hlow, fun i' hi' hne ↦ ?_, fun j hj _ ↦ hone j hj, hcc⟩
      exact absurd ((Option.some.inj hi').symm.trans hi) hne
    · rw [if_pos (by simpa using hi)]
      refine ⟨_, rfl, ?_, fun i' hi' _ ↦ ?_, fun j hj hne ↦ ?_, fun loaded ↦ ?_⟩
      · exact (WideCpu.get64_put64_of_ne (by simpa using Ne.symm hi) _).trans hlow
      · obtain rfl := Option.some.inj hi'
        refine (WideCpu.get64_put64 dn_ne_zero _).trans ?_
        rw [WideCpu.get64_zero, hlow]
        exact BitVec.zero_add _
      · have hji : j ≠ i := fun heq ↦ hne (by rw [heq])
        exact (WideCpu.get64_put64_of_ne (by simpa using hji) _).trans (hone j hj)
      · exact (oldCcr_put reg_ne_dn loaded _ _).trans (hcc loaded)

/-- The flag code of MULS.L and MULU.L. -/
def multiplyFlags (a : Alloc MulReg) (ctx : Context) (signed : Bool) (dl : Fin 8) (wide : Bool) :
    List WideOp :=
  if ctx.mask = 0 then []
  else
    insns (modifyCC ctx.ccLoaded (a.reg .cc)) ++
      [if wide then cmn64Reg 31 (dn dl) .LSL 0 else cmnReg 31 (dn dl) .LSL 0] ++
      insns (Caller.logic.emitFlags (a.reg .cc) (a.reg .tmp) (a.reg .tmp2) ctx.mask) ++
      if ctx.mask &&& srV ≠ 0 ∧ wide = false then longOverflow a signed (dn dl) else []

/-- The update that the flag code makes, from N and Z of the product, and its overflow. -/
def multiplyUpdate (mask : Mask) (wide n z v : Bool) : FlagUpdate :=
  if mask &&& srV ≠ 0 ∧ wide = false then
    (Caller.logic.update mask ⟨n, z, false, false⟩).andThen
      ((clearU srValt).andThen (setU srValt v))
  else Caller.logic.update mask ⟨n, z, false, false⟩

theorem run_multiplyFlags (a : Alloc MulReg) (ctx : Context) (x y : BitVec 32) (wide : Bool) (s : WideCpu)
    (hproduct : s.get64 (dn dl) = product signed 64 x y) :
    ∃ s', runForward WideOp.effect 0 (multiplyFlags a ctx signed dl wide) s = (s', 0) ∧
      (∀ j, s'.get64 (dn j) = s.get64 (dn j)) ∧
      ccrAfter ctx (a.reg .cc) s' =
        if ctx.mask = 0 then oldCcr ctx.ccLoaded (a.reg .cc) s
        else (multiplyUpdate ctx.mask wide
            (if wide then (product signed 64 x y).msb else ((product signed 64 x y).setWidth 32).msb)
            (if wide then product signed 64 x y == 0 else (product signed 64 x y).setWidth 32 == 0)
            (overflows signed x y)).apply (oldCcr ctx.ccLoaded (a.reg .cc) s) := by
  unfold multiplyFlags ccrAfter
  by_cases h0 : ctx.mask = 0
  · rw [if_pos h0, if_pos h0, h0]
    exact ⟨s, rfl, fun _ ↦ rfl, by simp⟩
  rw [if_neg h0, if_neg h0]
  have hloaded : (execInsns (modifyCC ctx.ccLoaded (a.reg .cc)) s).get64 (dn dl) =
      product signed 64 x y := by
    rw [(quiet_modifyCC ctx.ccLoaded).get64 (by simp), hproduct]
  have hop : WideOp.effect (if wide then cmn64Reg 31 (dn dl) .LSL 0 else cmnReg 31 (dn dl) .LSL 0)
      (execInsns (modifyCC ctx.ccLoaded (a.reg .cc)) s) =
        ((execInsns (modifyCC ctx.ccLoaded (a.reg .cc)) s).setFlags
          ⟨if wide then (product signed 64 x y).msb else ((product signed 64 x y).setWidth 32).msb,
            if wide then product signed 64 x y == 0 else (product signed 64 x y).setWidth 32 == 0,
            false, false⟩, 0) := by
    cases wide with
    | true =>
      rw [if_pos rfl, cmn64Reg, WideOp.effect]
      simp only [WideCpu.put64_zero, WideCpu.get64_zero, Shift.apply64, BitVec.shiftLeft_zero,
        hloaded, addFlags_zero64, if_true]
      rfl
    | false =>
      have hget : (execInsns (modifyCC ctx.ccLoaded (a.reg .cc)) s).get (dn dl) =
          (product signed 64 x y).setWidth 32 := by rw [WideCpu.get, hloaded]
      rw [if_neg Bool.false_ne_true, cmnReg, WideOp.effect]
      simp only [WideCpu.put_zero, WideCpu.get_zero, Shift.apply, BitVec.shiftLeft_zero, hget,
        addFlags_zero, Bool.false_eq_true, if_false]
      rfl
  obtain ⟨s', hrun, -, hcc, hkeep⟩ := run_flags .logic ctx.mask
    (allocated (a := a) (x := .cc) (y := .tmp) (by decide))
    (allocated (a := a) (x := .cc) (y := .tmp2) (by decide)) s hop
  have hdn : ∀ j, s'.get64 (dn j) = s.get64 (dn j) := fun j ↦ hkeep _ (by simp)
  have hloaded' : (ctx.ccLoaded || ctx.mask != 0) = true := by
    rw [bne_iff_ne.mpr h0, Bool.or_true]
  rw [hloaded', multiplyUpdate]
  by_cases hv : ctx.mask &&& srV ≠ 0 ∧ wide = false
  · rw [if_pos hv, if_pos hv]
    obtain ⟨s'', hrun', hdn', hcc'⟩ := run_longOverflow signed a dl s'
    refine ⟨s'', ?_, fun j ↦ (hdn' j).trans (hdn j), ?_⟩
    · rw [runForward_piece hrun, hrun']
    · rw [oldCcr, if_pos rfl, hcc', hcc, hdn, hproduct, expectedHigh_product, Bool.not_not]
      exact (FlagUpdate.apply_andThen _ _ _).symm
  · rw [if_neg hv, if_neg hv, List.append_nil]
    exact ⟨s', hrun, hdn, by rw [oldCcr, if_pos rfl, hcc]⟩

theorem multiply_ccr_iff (wide : Bool) (h0 : ctx.mask ≠ 0)
    {n z : Bool} (hnz : (n && z) = false) (v : Bool) (old : BitVec 32) :
    CcrCorrect ctx.mask (resultFlags n z (if wide then false else v)) old
        ((multiplyUpdate ctx.mask wide n z v).apply old) ↔ LongStale ctx wide old := by
  unfold LongStale multiplyUpdate
  by_cases hVC : ctx.mask = srVC
  · rw [hVC, logic_update_VC]
    cases wide with
    | true =>
      have hnone : ¬ (srVC &&& srV ≠ 0 ∧ true = false) := fun h ↦ Bool.noConfusion h.2
      rw [if_pos rfl, if_neg hnone, FlagUpdate.apply_id, ccrCorrect_VC_iff rfl rfl fun _ _ ↦ rfl]
      exact ⟨fun h _ ↦ ⟨fun _ ↦ h.1, h.2⟩, fun h ↦ ⟨(h rfl).1 rfl, (h rfl).2⟩⟩
    | false =>
      have hsome : srVC &&& srV ≠ 0 ∧ false = false := ⟨by decide, rfl⟩
      rw [if_neg Bool.false_ne_true, if_pos hsome, FlagUpdate.apply_andThen, FlagUpdate.apply_id]
      obtain ⟨hkeep, hv0, hset⟩ := overflow_update_bits v
      have hbit : ∀ i, i ≠ 0 →
          (((clearU srValt).andThen (setU srValt v)).apply old).getLsbD i = old.getLsbD i := by
        intro i hi
        rw [FlagUpdate.apply_bit]
        have hk := congrArg (BitVec.getLsbD · i) hkeep
        have hone : (1#32).getLsbD i = false := by
          simp [BitVec.getLsbD_one, hi]
        simp only [BitVec.getLsbD_or, hone, Bool.or_false, BitVec.getLsbD_allOnes] at hk
        have hs : ((clearU srValt).andThen (setU srValt v)).set.getLsbD i = false := by
          rw [hset]
          cases v <;> simp [BitVec.getLsbD_one, hi]
        rw [hk, hs, Bool.or_false]
        by_cases hlt : i < 32
        · rw [decide_eq_true hlt, Bool.and_true]
        · rw [BitVec.getLsbD_of_ge _ _ (Nat.not_lt.mp hlt), Bool.false_and]
      have hv : (((clearU srValt).andThen (setU srValt v)).apply old).getLsbD 0 = v := by
        rw [FlagUpdate.apply_bit, hv0, hset]
        cases v <;> simp
      rw [ccrCorrect_VC_iff (hbit 1 (by decide)) (hbit 4 (by decide)) fun i hi ↦ hbit i (by omega)]
      exact ⟨fun h _ ↦ ⟨fun hf ↦ absurd hf Bool.false_ne_true, h.2⟩,
        fun h ↦ ⟨hv, (h rfl).2⟩⟩
  · refine ⟨fun _ h ↦ absurd h hVC, fun _ ↦ FlagUpdate.Fits.ccrCorrect ?_ old⟩
    by_cases hv : ctx.mask &&& srV ≠ 0 ∧ wide = false
    · rw [if_pos hv, hv.2, if_neg Bool.false_ne_true]
      exact long_fits_overflow ctx.mask ctx.mask_lt hVC hv.1 n z v hnz
    · rw [if_neg hv]
      refine long_fits ctx.mask ctx.mask_lt hVC h0 n z _ hnz ?_
      cases wide with
      | true => exact .inr rfl
      | false => exact .inl (not_not.mp fun hne ↦ hv ⟨hne, rfl⟩)

/-- The product is right, and so are its flags but for the two that stay when just they are
requested. -/
theorem emitMulsL_iff (operand : Operand 32 false (a.reg .src) (a.reg .cc)) (s : WideCpu) :
    LongProduct ctx (a.reg .cc) signed dl dh (operand.value s) s
        (s.run (emitMulsL a ctx signed dl dh operand)) ↔
      LongStale ctx dh.isSome (oldCcr ctx.ccLoaded (a.reg .cc) s) := by
  obtain ⟨s₁, hload, hdn₁, hcc₁, -, hreg⟩ := run_read operand s
  have hsrc : s₁.get operand.read.2 = operand.value s := by
    cases operand with
    | dataRegister i =>
      dsimp only at hreg
      rw [hreg, WideCpu.get, hdn₁]
      exact (BitVec.setWidth_eq _).symm
    | fetched run value fetches =>
      dsimp only at hreg
      rw [hreg.1, WideCpu.get, hreg.2, BitVec.setWidth_eq,
        BitVec.setWidth_setWidth_of_le _ (by decide), BitVec.setWidth_eq]
  have hdl : s₁.get (dn dl) = s.get (dn dl) := by rw [WideCpu.get, hdn₁, ← WideCpu.get]
  obtain ⟨s₂, hmultiply, hlow, hhigh, hothers, hcc₂⟩ :=
    run_multiply signed a dl dh _ s₁ hsrc
  rw [hdl] at hlow hhigh
  have hadvance := quiet_advancePC ctx.pcRel (2 * (ctx.extWords + 1))
  have hdn₃ : ∀ j, (execInsns ctx.advance s₂).get64 (dn j) = s₂.get64 (dn j) := fun j ↦
    hadvance.get64 (by simp) s₂
  obtain ⟨s', hflags, hdn', hccr⟩ := run_multiplyFlags a ctx (s.get (dn dl))
    (operand.value s) dh.isSome (execInsns ctx.advance s₂) ((hdn₃ dl).trans hlow)
  have hfinal : s.run (emitMulsL a ctx signed dl dh operand) = s' := by
    have hcode : emitMulsL a ctx signed dl dh operand = operand.read.1 ++
        (([if signed then .smull (dn dl) (dn dl) operand.read.2
          else .umull (dn dl) (dn dl) operand.read.2] ++
          match dh with
          | some dh => if dn dh ≠ dn dl then [.add64Reg (dn dh) 31 (dn dl) .LSR 32] else []
          | none => []) ++ (insns ctx.advance ++ multiplyFlags a ctx signed dl dh.isSome)) := by
      unfold emitMulsL multiplyFlags
      dsimp only
      cases dh with
      | none => simp only [List.append_assoc, Option.isSome_none]
      | some dh => simp only [List.append_assoc, Option.isSome_some, reduceCtorEq, and_false]
    rw [hcode, WideCpu.run, runForward_piece hload, runForward_piece hmultiply,
      runForward_piece (runForward_insns _ _), hflags]
  have hold : oldCcr ctx.ccLoaded (a.reg .cc) (execInsns ctx.advance s₂) =
      oldCcr ctx.ccLoaded (a.reg .cc) s :=
    (oldCcr_execInsns hadvance (by simp) _ _).trans ((hcc₂ _).trans (hcc₁ _))
  rw [hold] at hccr
  rw [hfinal]
  have hiff : CcrCorrect ctx.mask (longFlags signed (s.get (dn dl)) (operand.value s) dh.isSome)
      (oldCcr ctx.ccLoaded (a.reg .cc) s) (ccrAfter ctx (a.reg .cc) s') ↔
        LongStale ctx dh.isSome (oldCcr ctx.ccLoaded (a.reg .cc) s) := by
    rw [hccr]
    by_cases h0 : ctx.mask = 0
    · rw [if_pos h0, LongStale, h0]
      refine ⟨fun _ h ↦ absurd h (by decide), fun _ ↦ ?_⟩
      unfold longFlags
      cases dh.isSome <;> exact ccrCorrect_none _
    · rw [if_neg h0]
      cases hwide : dh.isSome with
      | true => exact multiply_ccr_iff true h0 (msb_and_eq_zero _) _ _
      | false => exact multiply_ccr_iff false h0 (msb_and_eq_zero _) _ _
  have hall : ∀ j, s'.get64 (dn j) = s₂.get64 (dn j) := fun j ↦ (hdn' j).trans (hdn₃ j)
  refine ⟨fun h ↦ hiff.mp h.ccr, fun h ↦ ⟨?_, fun i hi hne ↦ ?_, fun j hj hne ↦ ?_, hiff.mpr h⟩⟩
  · rw [WideCpu.get, hall, hlow]
  · rw [WideCpu.get, hall, hhigh i hi hne]
  · rw [hall, hothers j hj hne, hdn₁]

end Long

end Emu68.MulDiv

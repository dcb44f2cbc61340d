import Emu68.Arithmetic.Instructions

/-!
The emitted code of ADD, SUB and CMP computes the result and the flags that are wanted, for operands
of every size and mode.
-/

set_option autoImplicit false
set_option relaxedAutoImplicit false

namespace Emu68.Arithmetic

open A64 Alu Lib MulDiv

/-! ### Flags of a part of a register -/

/-- The flags of the host tell those of the instruction. -/
structure Reports {n : ℕ} (op : Arith) (f : Nzcv) (x y : BitVec n) : Prop where
  n : f.n = (op.apply x y).msb
  z : f.z = (op.apply x y == 0)
  v : f.v = op.overflow x y
  c : op.caller.value f .c = op.carry x y

theorem toNat_shifted (size : Size) (x : BitVec 32) :
    (x <<< (32 - size.bits)).toNat = (x.setWidth size.bits).toNat * 2 ^ (32 - size.bits) := by
  rw [BitVec.toNat_shiftLeft, BitVec.toNat_setWidth, Nat.shiftLeft_eq]
  cases size <;> simp only [Size.bits, Size.bytes] <;> omega

theorem apply_shifted (op : Arith) (x y : BitVec 32) (k : ℕ) :
    op.apply (x <<< k) (y <<< k) = op.apply x y <<< k := by
  cases op with
  | add => exact BitVec.shiftLeft_add_distrib.symm
  | sub =>
    show x <<< k - y <<< k = (x - y) <<< k
    rw [BitVec.sub_eq_iff_eq_add, ← BitVec.shiftLeft_add_distrib, BitVec.sub_add_cancel]

theorem setWidth_apply (op : Arith) (x y : BitVec 32) {n : ℕ} (hn : n ≤ 32) :
    (op.apply x y).setWidth n = op.apply (x.setWidth n) (y.setWidth n) := by
  cases op with
  | add => exact BitVec.setWidth_add _ _ hn
  | sub =>
    show (x - y).setWidth n = x.setWidth n - y.setWidth n
    rw [eq_comm, BitVec.sub_eq_iff_eq_add, ← BitVec.setWidth_add _ _ hn, BitVec.sub_add_cancel]

/-- The flags of parts that are shifted up. -/
theorem reports_shifted (size : Size) (op : Arith) (x y : BitVec 32) :
    Reports op (op.hostFlags (x <<< (32 - size.bits)) (y <<< (32 - size.bits)))
      (x.setWidth size.bits) (y.setWidth size.bits) := by
  have hmsb : (op.apply (x <<< (32 - size.bits)) (y <<< (32 - size.bits))).msb =
      (op.apply (x.setWidth size.bits) (y.setWidth size.bits)).msb := by
    rw [apply_shifted, msb_shifted, setWidth_apply _ _ _ size.bits_range.2]
  have hzero : (op.apply (x <<< (32 - size.bits)) (y <<< (32 - size.bits)) == 0) =
      (op.apply (x.setWidth size.bits) (y.setWidth size.bits) == 0) := by
    rw [apply_shifted, zero_shifted, setWidth_apply _ _ _ size.bits_range.2]
  have hx := toNat_shifted size x
  have hy := toNat_shifted size y
  have hpow : 2 ^ 32 = 2 ^ size.bits * 2 ^ (32 - size.bits) := by cases size <;> rfl
  have hpos : 0 < 2 ^ (32 - size.bits) := Nat.two_pow_pos _
  cases op with
  | add =>
    refine ⟨hmsb, hzero, ?_, decide_eq_decide.mpr ?_⟩
    · have hresult : (x <<< (32 - size.bits) + y <<< (32 - size.bits)).msb =
          (x.setWidth size.bits + y.setWidth size.bits).msb := hmsb
      show ((x <<< (32 - size.bits)).msb == (y <<< (32 - size.bits)).msb &&
        (x <<< (32 - size.bits) + y <<< (32 - size.bits)).msb != (x <<< (32 - size.bits)).msb) =
          BitVec.saddOverflow _ _
      rw [BitVec.saddOverflow_eq, msb_shifted, msb_shifted, hresult]
      rfl
    · rw [hx, hy, hpow, ← Nat.add_mul]
      exact Nat.mul_le_mul_right_iff hpos
  | sub =>
    refine ⟨hmsb, ?_, ?_, ?_⟩
    · refine Eq.trans ?_ hzero
      show (x <<< (32 - size.bits) == y <<< (32 - size.bits)) =
        (x <<< (32 - size.bits) - y <<< (32 - size.bits) == 0#32)
      rw [Bool.eq_iff_iff, beq_iff_eq, beq_iff_eq, BitVec.sub_eq_iff_eq_add, BitVec.zero_add]
    · have hresult : (x <<< (32 - size.bits) - y <<< (32 - size.bits)).msb =
          (x.setWidth size.bits - y.setWidth size.bits).msb := hmsb
      show ((x <<< (32 - size.bits)).msb != (y <<< (32 - size.bits)).msb &&
        (x <<< (32 - size.bits) - y <<< (32 - size.bits)).msb != (x <<< (32 - size.bits)).msb) =
          BitVec.ssubOverflow _ _
      rw [BitVec.ssubOverflow_eq, msb_shifted, msb_shifted, hresult]
      cases (x.setWidth size.bits).msb <;> cases (y.setWidth size.bits).msb <;>
        cases (x.setWidth size.bits - y.setWidth size.bits).msb <;> rfl
    · show (!decide ((y <<< (32 - size.bits)).toNat ≤ (x <<< (32 - size.bits)).toNat)) =
        decide ((x.setWidth size.bits).toNat < (y.setWidth size.bits).toNat)
      rw [hx, hy, ← decide_not]
      exact decide_eq_decide.mpr (Nat.not_le.trans (Nat.mul_lt_mul_right hpos))

/-- The flags of whole registers. -/
theorem reports_long (op : Arith) (x y : BitVec 32) : Reports op (op.hostFlags x y)
    (x.setWidth Size.long.bits) (y.setWidth Size.long.bits) := by
  have h := reports_shifted .long op x y
  rwa [show 32 - Size.long.bits = 0 from rfl, BitVec.shiftLeft_zero, BitVec.shiftLeft_zero] at h

/-! ### The flags that are wanted -/

theorem arithFlags_set {n : ℕ} (op : Arith) (x y : BitVec n) (flag : Flag) :
    ∃ value, arithFlags op x y flag = .set value := by
  cases flag <;> exact ⟨_, rfl⟩

theorem ccrCorrect_zero {value : Flag → FlagValue} (h : ∀ flag, value flag ≠ .unaffected →
    ∃ b, value flag = .set b) (old : BitVec 32) : CcrCorrect 0 value old old := by
  refine ⟨fun flag ↦ ?_, fun _ _ ↦ rfl⟩
  by_cases hstays : value flag = .unaffected
  · rw [hstays]
    rfl
  · obtain ⟨b, hb⟩ := h flag hstays
    rw [hb]
    intro hwanted
    exact absurd hwanted (by simp [requested])

/-- The flag code of ADD and SUB. -/
theorem update_ccr {n : ℕ} {op : Arith} {f : Nzcv} {x y : BitVec n} {mask : Mask} (h0 : mask ≠ 0)
    (hlt : mask.toNat < 32) (h : Reports op f x y) (old : BitVec 32) :
    CcrCorrect mask (arithFlags op x y) old ((op.caller.update mask f).apply old) := by
  have htransfer : TransferCorrect op.caller mask f old ((op.caller.update mask f).apply old) := by
    refine (transferCorrect_iff ?_ f old).mpr ?_
    · cases op <;> simp [Arith.caller, Caller.passes, show ¬ mask = 0#8 from h0, hlt]
    · cases op <;> rfl
  refine ⟨fun flag ↦ ?_, htransfer.rest⟩
  have hvalue : requested mask flag = true →
      ((op.caller.update mask f).apply old).getLsbD flag.bit = op.caller.value f flag :=
    fun hwanted ↦ htransfer.requested flag (by cases op <;> exact of_decide_eq_true hwanted)
  cases flag with
  | n => exact fun hwanted ↦ (hvalue hwanted).trans h.n
  | z => exact fun hwanted ↦ (hvalue hwanted).trans h.z
  | v => exact fun hwanted ↦ (hvalue hwanted).trans (by cases op <;> exact h.v)
  | c => exact fun hwanted ↦ (hvalue hwanted).trans h.c
  | x => exact fun hwanted ↦ (hvalue hwanted).trans (by cases op <;> exact h.c)

theorem cmp_keeps_x : ∀ mask, Caller.cmp.passes mask = true → ∀ n z c v : Bool,
    (Caller.cmp.update mask ⟨n, z, c, v⟩).keep.getLsbD Flag.x.bit = true ∧
      (Caller.cmp.update mask ⟨n, z, c, v⟩).set.getLsbD Flag.x.bit = false := by
  decide +kernel

/-- The flag code of CMP. -/
theorem update_cmp_ccr {n : ℕ} {f : Nzcv} {x y : BitVec n} {mask : Mask} (h0 : mask ≠ 0)
    (hlt : mask.toNat < 16) (h : Reports .sub f x y) (old : BitVec 32) :
    CcrCorrect mask (cmpFlags x y) old ((Caller.cmp.update mask f).apply old) := by
  have hpasses : Caller.cmp.passes mask = true := by
    simp [Caller.passes, show ¬ mask = 0#8 from h0, hlt]
  have htransfer : TransferCorrect .cmp mask f old ((Caller.cmp.update mask f).apply old) :=
    (transferCorrect_iff hpasses f old).mpr rfl
  refine ⟨fun flag ↦ ?_, htransfer.rest⟩
  have hvalue : requested mask flag = true →
      ((Caller.cmp.update mask f).apply old).getLsbD flag.bit = Caller.cmp.value f flag :=
    fun hwanted ↦ htransfer.requested flag (of_decide_eq_true hwanted)
  cases flag with
  | n => exact fun hwanted ↦ (hvalue hwanted).trans h.n
  | z => exact fun hwanted ↦ (hvalue hwanted).trans h.z
  | v => exact fun hwanted ↦ (hvalue hwanted).trans h.v
  | c => exact fun hwanted ↦ (hvalue hwanted).trans h.c
  | x =>
    obtain ⟨hkeep, hset⟩ := cmp_keeps_x mask hpasses f.n f.z f.c f.v
    show ((Caller.cmp.update mask f).apply old).getLsbD Flag.x.bit = old.getLsbD Flag.x.bit
    rw [FlagUpdate.apply_bit, hkeep, hset, Bool.and_true, Bool.or_false]

/-! ### A single flag -/

def oneU (flag : Mask) (value : Bool) : FlagUpdate := (clearU flag).andThen (setU flag value)

theorem oneU_fits : ∀ flag : Flag, flag = .z ∨ flag = .n → ∀ value : Bool,
    (∀ other : Flag, requested flag.mask other = true → other = flag) ∧
      (oneU flag.mask value).keep.getLsbD flag.bit = false ∧
      (oneU flag.mask value).set.getLsbD flag.bit = value ∧
      (oneU flag.mask value).keep ||| 0x1f#32 = BitVec.allOnes 32 ∧
      (oneU flag.mask value).set &&& ~~~0x1f#32 = 0#32 := by
  decide +kernel

theorem oneU_ccr {n : ℕ} {op : Arith} {x y : BitVec n} {flag : Flag} (hflag : flag = .z ∨ flag = .n)
    {value : Bool} (hvalue : arithFlags op x y flag = .set value) (old : BitVec 32) :
    CcrCorrect flag.mask (arithFlags op x y) old ((oneU flag.mask value).apply old) := by
  obtain ⟨honly, hkeep, hset, hrest⟩ := oneU_fits flag hflag value
  refine FlagUpdate.Fits.ccrCorrect ⟨fun other ↦ ?_, hrest⟩ old
  obtain ⟨b, hb⟩ := arithFlags_set op x y other
  cases hwanted : requested flag.mask other with
  | false =>
    rw [hb]
    rfl
  | true =>
    obtain rfl := honly other hwanted
    rw [hvalue, hkeep, hset]
    exact beq_self_eq_true value

variable {e : Emission ArithReg} {size : Size} {s t : WideCpu} {op : Arith}

theorem bitmask_zero (hsize : size ≠ .long) (x : BitVec 32) :
    (x &&& bitmask (BitVec.ofNat 8 size.bits) 0 == 0) = (x.setWidth size.bits == 0) := by
  have hmask : (bitmask (BitVec.ofNat 8 size.bits) 0).toNat = 2 ^ size.bits - 1 := by
    cases size with
    | byte => decide +kernel
    | word => decide +kernel
    | long => exact absurd rfl hsize
  rw [Bool.eq_iff_iff, beq_iff_eq, beq_iff_eq, ← BitVec.toNat_inj, ← BitVec.toNat_inj,
    BitVec.toNat_and, hmask, Nat.and_two_pow_sub_one_eq_mod, BitVec.toNat_setWidth]
  rfl

theorem bitmask_negative (hsize : size ≠ .long) (x : BitVec 32) :
    (x &&& bitmask 1 (BitVec.ofNat 8 (33 - size.bits)) != 0) = (x.setWidth size.bits).msb := by
  have hmask : bitmask 1 (BitVec.ofNat 8 (33 - size.bits)) = BitVec.twoPow 32 (size.bits - 1) := by
    cases size with
    | byte => decide +kernel
    | word => decide +kernel
    | long => exact absurd rfl hsize
  have hmsb : (x.setWidth size.bits).msb = x.getLsbD (size.bits - 1) := by
    have hpos := size.bits_range.1
    rw [BitVec.msb_eq_getLsbD_last, BitVec.getLsbD_setWidth, decide_eq_true (by omega),
      Bool.true_and]
  have hne : (BitVec.twoPow 32 (size.bits - 1) != 0) = true := by
    cases size <;> decide +kernel
  rw [hmask, BitVec.and_twoPow, hmsb]
  cases x.getLsbD (size.bits - 1) with
  | true => exact hne
  | false => rfl

/-- The code that tests for one flag. -/
theorem run_oneFlag {flag : Mask} (hflag : flag ≠ 31) (width ror : BitVec 8) (cond : Cond)
    {dest : Reg} (hdest : ∀ x, e.flag.reg x ≠ dest) (s : WideCpu) :
    view true e.cc (execInsns (oneFlag e flag width ror cond dest) s) = { e.view s with
      ccr := (oneU flag (cond.holds (logicFlags (s.get dest &&& bitmask width ror)))).apply
        (e.view s).ccr } := by
  have htmp : Allocated e.cc (e.flag.reg .tmp) := allocated (by decide)
  have hquiet : Quiet ([.cc, .tmp].map e.flag.reg)
      (modifyCC e.ccLoaded e.cc ++ emitClearFlags e.cc (e.flag.reg .tmp) flag) :=
    ((quiet_modifyCC e.ccLoaded).mono (by simp +contextual [Emission.cc])).append
      (quiet_emitClearFlags flag)
  have hquiet' : Quiet ([.cc, .tmp].map e.flag.reg)
      (emitSetFlagsConditional e.cc (e.flag.reg .tmp) flag cond) :=
    quiet_emitSetFlagsConditional flag cond
  obtain ⟨hold, -⟩ := execInsns_modifyCC e.ccLoaded htmp.cc_ne s
  obtain ⟨-, hclear⟩ := execInsns_computes (emitClearFlags_computes htmp flag) htmp.cc_ne
    (execInsns (modifyCC e.ccLoaded e.cc) s)
  -- the flag is clear, and the result untouched
  obtain ⟨s₁, hs₁⟩ : ∃ s₁, s₁ = execInsns
      (modifyCC e.ccLoaded e.cc ++ emitClearFlags e.cc (e.flag.reg .tmp) flag) s := ⟨_, rfl⟩
  have hcc : s₁.get e.cc = (clearU flag).apply (e.view s).ccr := by
    rw [hs₁, execInsns, List.foldl_append]
    exact hclear.trans (congrArg _ hold)
  have hresult : s₁.get dest = s.get dest := by
    have hnot : dest ∉ [FlagReg.cc, .tmp].map e.flag.reg := fun hmem ↦ by
      obtain ⟨x, -, hx⟩ := List.mem_map.mp hmem
      exact hdest x hx
    rw [WideCpu.get, hs₁, hquiet.get64 hnot, ← WideCpu.get]
  have hview : view true e.cc s₁ = { e.view s with ccr := s₁.get e.cc } := by
    rw [hs₁]
    exact view_update hquiet e.ccLoaded s
  obtain ⟨-, hset⟩ := execInsns_computes (emitSetFlagsConditional_computes htmp hflag cond)
    htmp.cc_ne (s₁.setFlags (logicFlags (s₁.get dest &&& bitmask width ror)))
  have hcode : execInsns (oneFlag e flag width ror cond dest) s =
      execInsns (emitSetFlagsConditional e.cc (e.flag.reg .tmp) flag cond)
        (s₁.setFlags (logicFlags (s₁.get dest &&& bitmask width ror))) := by
    rw [oneFlag, execInsns, List.foldl_append, List.foldl_append, hs₁]
    show execInsns _ ((execInsns _ s).insn (.andsImmed 31 dest width ror)) = _
    rw [WideCpu.insn_andsImmed, WideCpu.put_zero]
  rw [hcode, view_update hquiet' true, hset, view_setFlags, hview, WideCpu.get_setFlags,
    WideCpu.flags_setFlags, hcc, hresult, oneU, FlagUpdate.apply_andThen]

/-! ### The code behind an operation -/

theorem effect_reg (op : Arith) (rd rn rm : Reg) (s : WideCpu) :
    (op.reg rd rn rm).effect s = (s.put rd (op.apply (s.get rn) (s.get rm)), 0) := by
  cases op with
  | add => simp [Arith.reg, WideOp.effect, Shift.apply, Arith.apply]
  | sub => simp [Arith.reg, WideOp.effect, Shift.apply, Arith.apply]

theorem effect_regs (op : Arith) (rd rn rm : Reg) (amount : ℕ) (s : WideCpu) :
    (op.regs rd rn rm amount).effect s =
      ((s.put rd (op.apply (s.get rn) (s.get rm <<< amount))).setFlags
        (op.hostFlags (s.get rn) (s.get rm <<< amount)), 0) := by
  cases op <;> rfl

theorem effect_cmp (rn rm : Reg) (amount : ℕ) (s : WideCpu) :
    (cmpReg rn rm .LSL amount).effect s =
      (s.setFlags (Arith.sub.hostFlags (s.get rn) (s.get rm <<< amount)), 0) :=
  (effect_regs .sub 31 rn rm amount s).trans (by rw [WideCpu.put_zero])

/-- The flags of the host go into the condition codes. -/
theorem run_flagCode (caller : Caller) {sets : Mask} {value : Flag → FlagValue} {s₁ : WideCpu}
    {expected : Machine} (hview : e.view s₁ = expected)
    (hzero : e.mask sets = 0 → CcrCorrect 0 value expected.ccr expected.ccr)
    (hccr : e.mask sets ≠ 0 → CcrCorrect (e.mask sets) value expected.ccr
      ((caller.update (e.mask sets) s₁.flags).apply expected.ccr)) :
    ∃ s', runForward WideOp.effect 0 (insns e.advance ++ flagCode e caller (e.mask sets)) s₁ =
      (s', 0) ∧ ArithRight e sets value expected s' := by
  have hadvanced : e.view (execInsns e.advance s₁) =
      { expected with pc := (execInsns e.advance s₁).get Branch.regPC } :=
    (view_advance e.ccLoaded s₁).trans (congrArg (fun m : Machine ↦ { m with
      pc := (execInsns e.advance s₁).get Branch.regPC }) hview)
  have hflags := flags_advance e.pcRel (2 * (e.extWords + 1)) s₁
  rw [runForward_piece (runForward_insns _ s₁)]
  unfold flagCode
  by_cases h0 : e.mask sets = 0
  · have hafter : viewAfter e sets (execInsns e.advance s₁) = e.view (execInsns e.advance s₁) := by
      rw [viewAfter, h0, bne_self_eq_false, Bool.or_false, Emission.view]
    rw [if_pos h0]
    refine ⟨_, rfl, ⟨_, expected.ccr, hafter.trans hadvanced⟩, ?_⟩
    rw [hafter, hadvanced, h0]
    exact hzero h0
  · obtain ⟨s', hrun, hview'⟩ :=
      run_flagUpdate (e := e) caller (e.mask sets) (execInsns e.advance s₁)
    have hafter : viewAfter e sets s' = { expected with
        pc := (execInsns e.advance s₁).get Branch.regPC
        ccr := (caller.update (e.mask sets) s₁.flags).apply expected.ccr } := by
      rw [viewAfter, bne_iff_ne.mpr h0, Bool.or_true, hview', hadvanced]
      exact congrArg (fun f ↦ { expected with
        pc := (execInsns e.advance s₁).get Branch.regPC
        ccr := (caller.update (e.mask sets) f).apply expected.ccr }) hflags
    rw [if_neg h0]
    refine ⟨s', hrun, ⟨_, _, hafter⟩, ?_⟩
    rw [hafter]
    exact hccr h0

/-- A part whose single flag is wanted is tested in its place. -/
theorem flagOfPart_single (op : Arith) (hsingle : Single e size) (dest : Reg) : ∃ flag : Flag,
    (flag = .z ∨ flag = .n) ∧ updateMask e = flag.mask ∧ ∃ width ror cond,
      flagOfPart e size dest = oneFlag e flag.mask width ror cond dest ∧
      ∀ x y : BitVec size.bits, ∀ value : BitVec 32, value.setWidth size.bits = op.apply x y →
        arithFlags op x y flag = .set (cond.holds (logicFlags (value &&& bitmask width ror))) := by
  unfold flagOfPart
  rw [if_neg (not_not.mpr hsingle)]
  by_cases hz : updateMask e = srZ
  · rw [if_pos hz]
    refine ⟨.z, .inl rfl, hz, _, _, _, rfl, fun x y value hvalue ↦ ?_⟩
    show FlagValue.set _ = FlagValue.set (value &&& bitmask _ 0 == 0)
    rw [bitmask_zero hsingle.1, hvalue]
  · rw [if_neg hz]
    refine ⟨.n, .inr rfl, hsingle.2.resolve_left hz, _, _, _, rfl, fun x y value hvalue ↦ ?_⟩
    show FlagValue.set _ = FlagValue.set (value &&& bitmask 1 _ != 0)
    rw [bitmask_negative hsingle.1, hvalue]

/-- The operation is done: its code leaves the machine it should, the flags of the host are those
of the instruction if it sets them, and the result is in a register. -/
structure Done (e : Emission ArithReg) {size : Size} (op : Arith) (x y : BitVec size.bits)
    (dest : Reg) (expected : Machine) (s₁ : WideCpu) : Prop where
  view : e.view s₁ = expected
  reports : ¬ Unflagged e size → Reports op s₁.flags x y
  result : (s₁.get dest).setWidth size.bits = op.apply x y

theorem run_finish {code : List WideOp} {dest : Reg} {s₁ : WideCpu} {x y : BitVec size.bits}
    {expected : Machine} (hrun : runForward WideOp.effect 0 code s = (s₁, 0))
    (hdone : Done e op x y dest expected s₁)
    (hheld : Single e size → ∀ r, e.flag.reg r ≠ dest) :
    ArithRight e srCCR (arithFlags op x y) expected (s.run (code ++ finish e size op dest)) := by
  rw [WideCpu.run, runForward_piece hrun]
  unfold finish
  by_cases hsingle : Single e size
  · obtain ⟨flag, hflag, hmask, width, ror, cond, hcode, htest⟩ :=
      flagOfPart_single op hsingle dest
    have hall : flag.mask ≠ 31 := by rcases hflag with rfl | rfl <;> decide
    have hset := run_oneFlag hall width ror cond (hheld hsingle) s₁
    have hne : e.mask srCCR ≠ 0 := by
      show updateMask e ≠ 0
      rw [hmask]
      rcases hflag with rfl | rfl <;> decide
    rw [if_pos hsingle, flagCode, if_pos rfl, List.append_nil, hcode,
      runForward_piece (runForward_insns _ s₁), runForward_insns]
    have hafter := view_advance (e := e) true
      (execInsns (oneFlag e flag.mask width ror cond dest) s₁)
    rw [hset, hdone.view] at hafter
    have hloaded : ∀ s', viewAfter e srCCR s' = view true e.cc s' := fun s' ↦ by
      rw [viewAfter, bne_iff_ne.mpr hne, Bool.or_true]
    refine ⟨⟨_, _, (hloaded _).trans hafter⟩, ?_⟩
    rw [hloaded, hafter, show e.mask srCCR = flag.mask from hmask]
    exact oneU_ccr hflag (htest x y _ hdone.result) _
  · have hmask : (updateMask e).toNat < 32 := Nat.lt_succ_of_le (mask_le srCCR)
    obtain ⟨s', hrun', hright⟩ : ∃ s', runForward WideOp.effect 0
        (insns e.advance ++ flagCode e op.caller (e.mask srCCR)) s₁ = (s', 0) ∧
          ArithRight e srCCR (arithFlags op x y) expected s' :=
      run_flagCode op.caller hdone.view
        (fun _ ↦ ccrCorrect_zero (fun flag _ ↦ arithFlags_set op x y flag) _)
        (fun h0 ↦ update_ccr h0 hmask (hdone.reports fun h ↦ h.elim h0 hsingle) _)
    rw [if_neg hsingle, flagOfPart, if_pos hsingle]
    show ArithRight e srCCR _ _ (runForward WideOp.effect 0 (insns e.advance ++ _) s₁).1
    rw [show updateMask e = e.mask srCCR from rfl, hrun']
    exact hright

/-! ### The instructions -/

variable {i : Fin 8} {src : Reg}

theorem shifted_back (size : Size) (x : BitVec 32) :
    ((x <<< (32 - size.bits)) >>> (32 - size.bits)).setWidth size.bits = x.setWidth size.bits := by
  refine BitVec.eq_of_getLsbD_eq fun k hk ↦ ?_
  have hrange := size.bits_range
  rw [BitVec.getLsbD_setWidth, BitVec.getLsbD_setWidth, BitVec.getLsbD_ushiftRight,
    BitVec.getLsbD_shiftLeft, decide_eq_true (show 32 - size.bits + k < 32 by omega),
    decide_eq_false (show ¬ 32 - size.bits + k < 32 - size.bits by omega), Nat.add_sub_cancel_left,
    Bool.not_false, Bool.true_and, Bool.true_and]

theorem shift_pos (hsize : size ≠ .long) : 0 < 32 - size.bits := by
  cases size with
  | byte => decide
  | word => decide
  | long => exact absurd rfl hsize

theorem effect_lsl (hsize : size ≠ .long) (rd rn : Reg) (s : WideCpu) :
    (WideOp.insn (lsl rd rn (32 - size.bits))).effect s =
      (s.put rd (s.get rn <<< (32 - size.bits)), 0) := by
  have hbits := size.bits_range
  exact congrArg (·, 0) (WideCpu.insn_lsl rn (shift_pos hsize) (by omega))

theorem get_tmp (value : BitVec 32) : (t.put (tmp e) value).get (tmp e) = value :=
  WideCpu.get_put reg_ne_zero value

theorem put_setFlags (rd : Reg) (value : BitVec 32) (f : Nzcv) (s : WideCpu) :
    (s.put rd value).setFlags f = (s.setFlags f).put rd value := by
  unfold WideCpu.put WideCpu.put64
  split_ifs <;> rfl

/-- The result in the place of the part, whichever way it is computed. -/
theorem done_insert {operand : Source e .src size false} {x y : BitVec size.bits} {u : WideCpu}
    {result : BitVec size.bits} (hview : e.view u = operand.after s)
    (hreports : ¬ Unflagged e size → Reports op u.flags x y) (hresult : result = op.apply x y) :
    Done e op x y (dn i) ((operand.after s).setD i (replaceLow (s.get (dn i)) (op.apply x y)))
      (u.put (dn i) (replaceLow (u.get (dn i)) result)) := by
  rw [get_dn_of_view hview, hresult]
  refine ⟨?_, fun h ↦ ?_, ?_⟩
  · rw [view_setD, hview]
  · rw [WideCpu.flags_put]
    exact hreports h
  · rw [WideCpu.get_put dn_ne_zero]
    exact setWidth_replaceLow size.bits_range.2 _ _

theorem run_computeInRegister (op : Arith) (i : Fin 8) {operand : Source e .src size false}
    (hloaded : Loaded operand (size = .long ∨ Unflagged e size) src s t) :
    ∃ s₁, runForward WideOp.effect 0 (computeInRegister e size op src i) t = (s₁, 0) ∧
      Done e op ((s.get (dn i)).setWidth size.bits) (operand.value s) (dn i)
        ((operand.after s).setD i (replaceLow (s.get (dn i))
          (op.apply ((s.get (dn i)).setWidth size.bits) (operand.value s)))) s₁ := by
  have hdn : t.get (dn i) = s.get (dn i) := get_dn_of_view hloaded.view
  have hbits := size.bits_range
  unfold computeInRegister
  by_cases hlong : size = .long
  · subst hlong
    have hsrc : t.get src = operand.value s := (BitVec.setWidth_eq _).symm.trans hloaded.value
    have hx : (s.get (dn i)).setWidth Size.long.bits = t.get (dn i) :=
      (BitVec.setWidth_eq _).trans hdn.symm
    have hresult : (op.apply (t.get (dn i)) (t.get src) : BitVec 32) =
        op.apply ((s.get (dn i)).setWidth Size.long.bits) (operand.value s) :=
      congrArg₂ (fun a b : BitVec 32 ↦ op.apply a b) hx.symm hsrc
    have hreports : Reports op (op.hostFlags (t.get (dn i)) (t.get src))
        ((s.get (dn i)).setWidth Size.long.bits) (operand.value s) := by
      rw [← hdn, ← hloaded.value]
      exact reports_long op _ _
    have hall := replaceLow_all (t.get (dn i)) (op.apply (t.get (dn i)) (t.get src))
    rw [if_pos rfl]
    by_cases h0 : updateMask e = 0
    · rw [if_pos h0, runForward_step (effect_reg op _ _ _ t)]
      refine ⟨_, rfl, ?_⟩
      rw [← hall]
      exact done_insert hloaded.view (fun h ↦ absurd (.inl h0) h) hresult
    · rw [if_neg h0, runForward_step (effect_regs op _ _ _ 0 t), BitVec.shiftLeft_zero]
      refine ⟨_, rfl, ?_⟩
      rw [put_setFlags, ← hall]
      exact done_insert (u := t.setFlags (op.hostFlags (t.get (dn i)) (t.get src))) hloaded.view
        (fun _ ↦ hreports) hresult
  · rw [if_neg hlong]
    by_cases hunflagged : Unflagged e size
    · rw [if_pos hunflagged, runForward_step (effect_reg op _ _ _ t)]
      refine ⟨_, congrArg (·, 0) (WideCpu.insn_bfxil (tmp e) 0 (by omega)), ?_⟩
      refine done_insert ?_ (fun h ↦ absurd hunflagged h) ?_
      · rw [tmp, e.view_put32_own, hloaded.view]
      · rw [tmp, WideCpu.get_put reg_ne_zero, BitVec.ushiftRight_zero, setWidth_apply _ _ _ hbits.2,
          hdn, hloaded.value]
    · obtain rfl : src = e.own.reg .src :=
        hloaded.own (decide_eq_false fun h ↦ h.elim hlong hunflagged)
      have hsrc : ∀ value, (t.put (tmp e) value).get (e.own.reg .src) = t.get (e.own.reg .src) :=
        fun value ↦ WideCpu.get_put_of_ne (by simp [tmp]) value
      rw [if_neg hunflagged, runForward_step (effect_lsl hlong _ _ t),
        runForward_step (effect_regs op _ _ _ _ _), get_tmp, hsrc]
      refine ⟨_, congrArg (·, 0) (WideCpu.insn_bfxil (e.own.reg .src) (32 - size.bits) (by omega)),
        ?_⟩
      refine done_insert ?_ (fun _ ↦ ?_) ?_
      · rw [e.view_setFlags, e.view_put32_own, tmp, e.view_put32_own, hloaded.view]
      · rw [WideCpu.flags_setFlags, hdn, ← hloaded.value]
        exact reports_shifted size op _ _
      · rw [WideCpu.get_setFlags, WideCpu.get_put reg_ne_zero, apply_shifted, shifted_back,
          setWidth_apply _ _ _ hbits.2, hdn, hloaded.value]

theorem emitIntoRegister_right (op : Arith) (i : Fin 8) (operand : Source e .src size false)
    (s : WideCpu) :
    ArithRight e srCCR (arithFlags op ((s.get (dn i)).setWidth size.bits) (operand.value s))
      ((operand.after s).setD i (replaceLow (s.get (dn i))
        (op.apply ((s.get (dn i)).setWidth size.bits) (operand.value s))))
      (s.run (emitIntoRegister e size op i operand)) := by
  obtain ⟨t, hload, hloaded⟩ := run_load operand (size = .long ∨ Unflagged e size) s
  obtain ⟨s₁, hcompute, hdone⟩ := run_computeInRegister op i hloaded
  exact run_finish ((runForward_piece hload).trans hcompute) hdone fun _ _ ↦ reg_ne_dn

theorem changes_put (value : BitVec 32) :
    Changes ([ArithReg.tmp].map e.own.reg) t (t.put (tmp e) value) := by
  refine ⟨fun r hr ↦ ?_, WideCpu.memory_put64 .., ?_⟩
  · exact WideCpu.get64_put64_of_ne (fun heq ↦ hr (List.mem_singleton.mpr heq)) _
  · show (t.put64 (tmp e) _).simd = t.simd
    unfold WideCpu.put64
    split_ifs <;> rfl

theorem changes_setFlags {rs : List Reg} {u : WideCpu} (h : Changes rs t u) (f : Nzcv) :
    Changes rs t (u.setFlags f) := ⟨h.get64, h.memory, h.simd⟩

/-- An operand in its register is replaced by the result. -/
theorem run_computeInMemory (op : Arith) (j : Fin 8) {value : BitVec size.bits}
    (hvalue : t.get (tmp e) = value.setWidth 32) :
    ∃ t', runForward WideOp.effect 0 (computeInMemory e size op j) t = (t', 0) ∧
      Changes ([ArithReg.tmp].map e.own.reg) t t' ∧
      (t'.get (tmp e)).setWidth size.bits = op.apply value ((t.get (dn j)).setWidth size.bits) ∧
      (¬ Unflagged e size → Reports op t'.flags value ((t.get (dn j)).setWidth size.bits)) := by
  have hbits := size.bits_range
  have hpart : (t.get (tmp e)).setWidth size.bits = value := by
    rw [hvalue, BitVec.setWidth_setWidth_of_le _ hbits.2, BitVec.setWidth_eq]
  have hresult : (op.apply (t.get (tmp e)) (t.get (dn j))).setWidth size.bits =
      op.apply value ((t.get (dn j)).setWidth size.bits) := by
    rw [setWidth_apply _ _ _ hbits.2, hpart]
  have hplain : runForward WideOp.effect 0 [op.reg (tmp e) (tmp e) (dn j)] t =
      (t.put (tmp e) (op.apply (t.get (tmp e)) (t.get (dn j))), 0) :=
    runForward_step (effect_reg op _ _ _ t)
  unfold computeInMemory
  by_cases hunflagged : Unflagged e size
  · have hcode : (if size = .long then [if updateMask e = 0 then op.reg (tmp e) (tmp e) (dn j)
          else op.regs (tmp e) (tmp e) (dn j) 0]
        else if Unflagged e size then [op.reg (tmp e) (tmp e) (dn j)]
        else [.insn (lsl (tmp e) (tmp e) (32 - size.bits)),
          op.regs (tmp e) (tmp e) (dn j) (32 - size.bits),
          .insn (lsr (tmp e) (tmp e) (32 - size.bits))]) = [op.reg (tmp e) (tmp e) (dn j)] := by
      split_ifs with hlong h0
      · rfl
      · exact absurd hunflagged fun h ↦ h.elim h0 fun hsingle ↦ hsingle.1 hlong
      · rfl
    rw [hcode]
    refine ⟨_, hplain, changes_put _, ?_, fun h ↦ absurd hunflagged h⟩
    rw [get_tmp, hresult]
  · by_cases hlong : size = .long
    · rw [if_pos hlong, if_neg fun h0 ↦ hunflagged (.inl h0),
        runForward_step (effect_regs op _ _ _ 0 t), BitVec.shiftLeft_zero]
      refine ⟨_, rfl, changes_setFlags (changes_put _) _, ?_, fun _ ↦ ?_⟩
      · rw [WideCpu.get_setFlags, get_tmp, hresult]
      · subst hlong
        rw [WideCpu.flags_setFlags, ← hpart]
        exact reports_long op _ _
    · have hdn : ∀ result, (t.put (tmp e) result).get (dn j) = t.get (dn j) := fun result ↦
        WideCpu.get_put_of_ne dn_ne_reg result
      rw [if_neg hlong, if_neg hunflagged, runForward_step (effect_lsl hlong _ _ t),
        runForward_step (effect_regs op _ _ _ _ _), get_tmp, hdn]
      refine ⟨_, congrArg (·, 0) (WideCpu.insn_lsr (tmp e) (by omega)), ?_, ?_, fun _ ↦ ?_⟩
      · exact ((changes_put _).trans (changes_setFlags (changes_put _) _)).trans (changes_put _)
      · rw [get_tmp, WideCpu.get_setFlags, get_tmp, apply_shifted, shifted_back, hresult]
      · rw [WideCpu.flags_put, WideCpu.flags_setFlags, ← hpart]
        exact reports_shifted size op _ _

theorem emitIntoMemory_right (op : Arith) (j : Fin 8) (target : Target (e.own.reg .ea) e.cc)
    (hheld : Single e size → ∀ x, e.flag.reg x ≠ tmp e) (s : WideCpu) :
    ArithRight e srCCR (arithFlags op (target.value size s) ((s.get (dn j)).setWidth size.bits))
      ((target.after size s).setMemory (Lib.store s.memory (target.address size s) size.bytes
        (op.apply (target.value size s) ((s.get (dn j)).setWidth size.bits)).toNat))
      (s.run (emitIntoMemory e size op j target)) := by
  have hcompute : ∀ u : WideCpu, u.get (e.own.reg .tmp) = (target.value size s).setWidth 32 →
      (∀ i, u.get (dn i) = s.get (dn i)) →
      ∃ u', runForward WideOp.effect 0 (computeInMemory e size op j) u = (u', 0) ∧
        Changes ([ArithReg.tmp].map e.own.reg) u u' ∧
        (u'.get (e.own.reg .tmp)).setWidth size.bits =
          op.apply (target.value size s) ((s.get (dn j)).setWidth size.bits) ∧
        ((u'.get (e.own.reg .tmp)).setWidth size.bits =
            op.apply (target.value size s) ((s.get (dn j)).setWidth size.bits) ∧
          (¬ Unflagged e size → Reports op u'.flags (target.value size s)
            ((s.get (dn j)).setWidth size.bits))) := by
    intro u hvalue hdn
    obtain ⟨u', hrun, hchanges, hresult, hreports⟩ := run_computeInMemory op j hvalue
    rw [hdn] at hresult hreports
    exact ⟨u', hrun, hchanges, hresult, hresult, hreports⟩
  obtain ⟨s₁, hrun, hview, hresult, hreports⟩ := run_modify target (by decide) (by decide)
    (P := fun f value ↦ value.setWidth size.bits =
        op.apply (target.value size s) ((s.get (dn j)).setWidth size.bits) ∧
      (¬ Unflagged e size →
        Reports op f (target.value size s) ((s.get (dn j)).setWidth size.bits))) hcompute
  exact run_finish hrun ⟨hview, hreports, hresult⟩ hheld

theorem emitCMP_right (i : Fin 8) (operand : Source e .src size false) (s : WideCpu) :
    ArithRight e srNZVC (cmpFlags ((s.get (dn i)).setWidth size.bits) (operand.value s))
      (operand.after s) (s.run (emitCMP e size i operand)) := by
  obtain ⟨t, hload, hloaded⟩ := run_load operand true s
  have hdn : t.get (dn i) = s.get (dn i) := get_dn_of_view hloaded.view
  have hbits := size.bits_range
  -- the comparison leaves nothing but the flags
  obtain ⟨s₁, hcompare, hview, hreports⟩ : ∃ s₁, runForward WideOp.effect 0
      (if size = .long then [cmpReg (dn i) (operand.load true).2 .LSL 0]
        else [.insn (lsl (tmp e) (dn i) (32 - size.bits)),
          cmpReg (tmp e) (operand.load true).2 .LSL (32 - size.bits)]) t = (s₁, 0) ∧
      e.view s₁ = operand.after s ∧
      Reports .sub s₁.flags ((s.get (dn i)).setWidth size.bits) (operand.value s) := by
    rw [← hdn, ← hloaded.value]
    by_cases hlong : size = .long
    · rw [if_pos hlong, runForward_step (effect_cmp _ _ 0 t), BitVec.shiftLeft_zero]
      refine ⟨_, rfl, (e.view_setFlags _).trans hloaded.view, ?_⟩
      subst hlong
      exact reports_long .sub _ _
    · have hsrc : ∀ value, (t.put (tmp e) value).get (operand.load true).2 =
          t.get (operand.load true).2 := fun value ↦
        WideCpu.get_put_of_ne (hloaded.apart .tmp (by decide)) value
      rw [if_neg hlong, runForward_step (effect_lsl hlong _ _ t),
        runForward_step (effect_cmp _ _ _ _), hsrc, get_tmp]
      refine ⟨_, rfl, ?_, reports_shifted size .sub _ _⟩
      rw [e.view_setFlags, tmp, e.view_put32_own, hloaded.view]
  have hmask : (e.mask srNZVC).toNat < 16 := Nat.lt_succ_of_le (mask_le srNZVC)
  obtain ⟨s', hrun, hright⟩ : ∃ s', runForward WideOp.effect 0
      (insns e.advance ++ flagCode e .cmp (e.mask srNZVC)) s₁ = (s', 0) ∧
        ArithRight e srNZVC (cmpFlags ((s.get (dn i)).setWidth size.bits) (operand.value s))
          (operand.after s) s' :=
    run_flagCode .cmp hview
      (fun _ ↦ ccrCorrect_zero (fun flag hstays ↦ by
        cases flag with
        | x => exact absurd rfl hstays
        | n => exact ⟨_, rfl⟩
        | z => exact ⟨_, rfl⟩
        | v => exact ⟨_, rfl⟩
        | c => exact ⟨_, rfl⟩) _)
      (fun h0 ↦ update_cmp_ccr h0 hmask hreports _)
  unfold emitCMP
  dsimp only
  rw [WideCpu.run, List.append_assoc, List.append_assoc, runForward_piece hload,
    runForward_piece hcompare, hrun]
  exact hright

/-- The code of ADD, SUB and CMP does what the instruction does, and updates the flags that are
wanted to its values. -/
theorem emit_right (insn : Insn e size) (s : WideCpu) :
    ArithRight e insn.sets (insn.flags s) (insn.after s) (s.run insn.emit) := by
  cases insn with
  | intoRegister op i operand => exact emitIntoRegister_right op i operand s
  | intoMemory op j target hheld => exact emitIntoMemory_right op j target hheld s
  | compare i operand => exact emitCMP_right i operand s

end Emu68.Arithmetic

import Emu68.MulDiv.Correctness
import Emu68.MulDiv.LongDivision

/-!
When DIVS.L and DIVU.L are right. The division of 32 signed bits does not see its one overflow, and
the unsigned division of 64 bits takes the upper half of the divisor's register for a part of it.
-/

set_option autoImplicit false
set_option relaxedAutoImplicit false

namespace Emu68.MulDiv

open A64 Alu Lib

/-! ### The claim and its condition -/

/-- The same instruction with other flags requested. -/
def Context.requesting (ctx : Context) (mask : Mask) (h : mask.toNat < 16) : Context :=
  { ctx with
    mask := mask
    mask_lt := h }

/-- The dividend, of 64 bits or of 32. -/
def dividend (signed wide : Bool) (dq dr : BitVec 32) : ℤ :=
  if wide then number signed (dr ++ dq) else number signed dq

/-- The emitted code leaves the result of the 68040, whatever flags are requested. -/
def LongDivided (c : Alloc LongDivReg) (ctx : Context) (signed wide : Bool) (dq dr : Fin 8)
    (operand : Operand 32 false (c.reg .src) (c.reg .cc)) (s : WideCpu) : Prop :=
  ∀ (mask : Mask) (h : mask.toNat < 16),
    Divided (ctx.requesting mask h) (c.reg .cc)
      (divide signed 32 (dividend signed wide (s.get (dn dq)) (s.get (dn dr)))
        (number signed (operand.value s)))
      ((operand.after s).get Branch.regPC) (storedLong dq dr) s
      (execTrap (emitDivusL (ctx.requesting mask h) c signed wide dq dr operand) s)

/-- The operands with which the host's division is the one of the 68040. `y` is the divisor with the
upper half of its register. -/
def HostExact (signed wide : Bool) (dq dr : BitVec 32) (y : BitVec 64) : Prop :=
  match signed, wide with
  | true, false => ¬ (dq = 0x80000000#32 ∧ y.setWidth 32 = 0xffffffff#32)
  | false, true =>
    y.setWidth 32 = 0 ∨ y >>> 32 = 0 ∨ (dr ++ dq).toNat < (y.setWidth 32).toNat
  | _, _ => True

section QuotientExactness

variable {ctx : Context} {cc : Reg} {wide : Bool} {dq dr : Fin 8} {h : HostQuotient}
variable {s s' : WideCpu} {outcome : Quotient 32} {pc : BitVec 32}

/-! ### From the host's quotient to the registers and flags -/

theorem divided_of_done (hs : HostDivided ctx cc wide dq dr h s s') (hmoved : h.moved = true)
    (houtcome : outcome = .done h.quotient h.remainder) :
    Divided ctx cc outcome pc (storedLong dq dr) s ⟨s', none, false⟩ := by
  subst houtcome
  have hquot : s'.get (dn dq) = h.quotient := by
    rw [hs.registers, if_pos hmoved, storedLong, if_pos rfl]
    rfl
  refine ⟨rfl, rfl, fun j ↦ ?_, ?_⟩
  · dsimp only
    rw [hs.registers, if_pos hmoved]
  · dsimp only
    rw [hs.ccr, hmoved, hquot]
    exact ((longQuotient_fits ctx.mask ctx.mask_lt wide _ _ (msb_and_eq_zero _)).1).ccrCorrect _

theorem divided_of_overflow (hs : HostDivided ctx cc true dq dr h s s') (hmoved : h.moved = false)
    (houtcome : outcome = .overflow) :
    Divided ctx cc outcome pc (storedLong dq dr) s ⟨s', none, false⟩ := by
  subst houtcome
  refine ⟨rfl, rfl, fun j ↦ ?_, ?_⟩
  · dsimp only
    rw [hs.registers, hmoved, if_neg Bool.false_ne_true]
  · dsimp only
    rw [hs.ccr, hmoved]
    exact ((longQuotient_fits ctx.mask ctx.mask_lt true _ _ (msb_and_eq_zero _)).2).ccrCorrect _

/-- An overflow that the host does not see is not told by V. -/
theorem not_divided_of_overflow (hs : HostDivided ctx cc wide dq dr h s s')
    (hmoved : h.moved = true) (hmask : ctx.mask = srV) (houtcome : outcome = .overflow) :
    ¬ Divided ctx cc outcome pc (storedLong dq dr) s ⟨s', none, false⟩ := by
  subst houtcome
  intro hdivided
  have hccr : CcrCorrect ctx.mask overflowFlags (oldCcr ctx.ccLoaded cc s) (s'.get cc) :=
    hdivided.ccr
  rw [hs.ccr, hmoved, hmask] at hccr
  exact longQuotient_overflow wide ⟨_, _, false, false⟩ _ hccr

theorem not_divided_of_ne (hs : HostDivided ctx cc wide dq dr h s s') (hmoved : h.moved = true)
    {q r : BitVec 32} (hne : h.quotient ≠ q) (houtcome : outcome = .done q r) :
    ¬ Divided ctx cc outcome pc (storedLong dq dr) s ⟨s', none, false⟩ := by
  subst houtcome
  intro hdivided
  have hquot := hdivided.registers dq
  dsimp only at hquot
  rw [hs.registers, if_pos hmoved, storedLong, if_pos rfl, storedLong, if_pos rfl] at hquot
  exact hne hquot

/-! ### The host's quotient and that of the 68040 -/

/-- A dividend of 32 bits. -/
theorem narrow_eq (signed : Bool) (x z : BitVec 32) {y : BitVec 64} (hy : y.setWidth 32 ≠ 0)
    (hfits : Fits signed 32 ((number signed x).tdiv (number signed (y.setWidth 32)))) :
    divide signed 32 (number signed x) (number signed (y.setWidth 32)) =
      .done (hostQuotient signed false x z y).quotient
        (hostQuotient signed false x z y).remainder := by
  rw [divide, if_neg (mt (number_eq_zero signed _).mp hy), if_pos hfits, ← hostDiv_eq,
    ← hostRem_eq]
  rfl

/-- The only quotient of 32 bits that is too large. -/
theorem narrow_fits_iff (signed : Bool) (x y : BitVec 32) (hy : y ≠ 0) :
    Fits signed 32 ((number signed x).tdiv (number signed y)) ↔
      ¬ (signed = true ∧ x = 0x80000000#32 ∧ y = 0xffffffff#32) := by
  have hrange := tdiv_range signed x (number signed y) fun hs ↦ by
    rw [hs]
    exact Int.natCast_nonneg _
  cases signed with
  | false => exact iff_of_true hrange fun h ↦ Bool.noConfusion h.1
  | true =>
    rw [if_pos rfl, if_pos rfl] at hrange
    have hlow := x.le_toInt
    have hhigh := x.toInt_lt
    have hmin : (0x80000000#32).toInt = -2 ^ 31 := by decide
    have hminus : (0xffffffff#32).toInt = -1 := by decide
    rw [← BitVec.toInt_inj, ← BitVec.toInt_inj, hmin, hminus]
    show _ ∧ _ ↔ _
    constructor
    · rintro ⟨-, hlt⟩ ⟨-, hx, hy'⟩
      have htwo : (number true x).tdiv (number true y) = 2 ^ 31 := by
        show x.toInt.tdiv y.toInt = 2 ^ 31
        rw [hx, hy']
        decide
      omega
    · intro hnot
      refine ⟨hrange.1, lt_of_le_of_ne hrange.2 fun htwo ↦ hnot ⟨rfl, ?_⟩⟩
      -- the divisor is 1 or -1, and the dividend is the least
      have habs := congrArg Int.natAbs htwo
      have hxabs : x.toInt.natAbs ≤ 2 ^ 31 := by omega
      have hdiv : x.toInt.natAbs / y.toInt.natAbs = 2 ^ 31 :=
        (Int.natAbs_tdiv _ _).symm.trans habs
      have hle : 2 ^ 31 * y.toInt.natAbs ≤ x.toInt.natAbs :=
        hdiv ▸ Nat.div_mul_le_self _ _
      have hyabs : y.toInt.natAbs = 1 := by
        have hpos : y.toInt.natAbs ≠ 0 := by
          rw [Ne, Int.natAbs_eq_zero]
          exact mt (number_eq_zero true y).mp hy
        omega
      have hxmin : x.toInt = -2 ^ 31 := by omega
      refine ⟨hxmin, ?_⟩
      rcases Int.natAbs_eq y.toInt with hone | hone
      · rw [hyabs] at hone
        have hquot : x.toInt.tdiv y.toInt = 2 ^ 31 := htwo
        rw [hone, hxmin] at hquot
        exact absurd hquot (by decide)
      · rw [hyabs] at hone
        exact hone

/-- A dividend of 64 bits, and a divisor whose register is extended. -/
theorem wide_eq (signed : Bool) (q r : BitVec 32) {y : BitVec 64} (hy : y.setWidth 32 ≠ 0)
    (hextended : signed = false → y >>> 32 = 0) :
    divide signed 32 (number signed (r ++ q)) (number signed (y.setWidth 32)) =
      if (hostQuotient signed true q r y).moved then
        .done (hostQuotient signed true q r y).quotient
          (hostQuotient signed true q r y).remainder
      else .overflow := by
  have hnumber : number signed (if signed then (y.setWidth 32).signExtend 64 else y) =
      number signed (y.setWidth 32) := by
    cases signed with
    | true => exact BitVec.toInt_signExtend_of_le (by decide)
    | false =>
      have hsmall := congrArg BitVec.toNat (hextended rfl)
      rw [BitVec.toNat_ushiftRight, Nat.shiftRight_eq_div_pow] at hsmall
      have hlt : y.toNat < 2 ^ 32 := Nat.lt_of_div_eq_zero (by decide) hsmall
      show (y.toNat : ℤ) = ((y.setWidth 32).toNat : ℤ)
      rw [BitVec.toNat_setWidth, Nat.mod_eq_of_lt hlt]
  have hrange := tdiv_range signed (r ++ q) (number signed (y.setWidth 32)) fun hs ↦ by
    rw [hs]
    exact Int.natCast_nonneg _
  have hquot := hostDiv_eq signed (r ++ q) (if signed then (y.setWidth 32).signExtend 64 else y)
  have hrem := hostRem_eq signed (r ++ q) (if signed then (y.setWidth 32).signExtend 64 else y)
  rw [hnumber] at hquot hrem
  have hmoved : (hostQuotient signed true q r y).moved = true ↔
      Fits signed 32 ((number signed (r ++ q)).tdiv (number signed (y.setWidth 32))) := by
    rw [← extend_long_iff signed _ hrange.1 hrange.2, ← hquot]
    exact beq_iff_eq
  rw [divide, if_neg (mt (number_eq_zero signed _).mp hy)]
  by_cases hfits : Fits signed 32 ((number signed (r ++ q)).tdiv (number signed (y.setWidth 32)))
  · rw [if_pos hfits, if_pos (hmoved.mpr hfits), ← setWidth_ofInt (by decide : 32 ≤ 64), ← hquot,
      ← setWidth_ofInt (by decide : 32 ≤ 64), ← hrem]
    rfl
  · rw [if_neg hfits, if_neg (mt hmoved.mp hfits)]

/-- A divisor whose register is too large. -/
theorem wide_upper (q r : BitVec 32) {y : BitVec 64} (hupper : y >>> 32 ≠ 0) :
    (hostQuotient false true q r y).moved = true ∧
      ((r ++ q).toNat < (y.setWidth 32).toNat →
        divide false 32 (number false (r ++ q)) (number false (y.setWidth 32)) =
          .done (hostQuotient false true q r y).quotient
            (hostQuotient false true q r y).remainder) ∧
      (y.setWidth 32 ≠ 0 → (y.setWidth 32).toNat ≤ (r ++ q).toNat →
        divide false 32 (number false (r ++ q)) (number false (y.setWidth 32)) = .overflow ∨
          ∃ quotient remainder, (hostQuotient false true q r y).quotient ≠ quotient ∧
            divide false 32 (number false (r ++ q)) (number false (y.setWidth 32)) =
              .done quotient remainder) := by
  have hylt := y.isLt
  have hxlt := (r ++ q).isLt
  have hhigh : y.toNat / 2 ^ 32 ≠ 0 := fun h ↦ hupper <| BitVec.eq_of_toNat_eq <| by
    rw [BitVec.toNat_ushiftRight, Nat.shiftRight_eq_div_pow]
    exact h
  have hsplit : 2 ^ 32 * (y.toNat / 2 ^ 32) + (y.setWidth 32).toNat = y.toNat := by
    rw [BitVec.toNat_setWidth]
    exact Nat.div_add_mod _ _
  have hquot : ((r ++ q) / y).toNat < 2 ^ 32 := by
    rw [BitVec.toNat_udiv]
    exact Nat.div_lt_of_lt_mul (by omega)
  have hlow : (hostQuotient false true q r y).quotient.toNat = (r ++ q).toNat / y.toNat := by
    show (((r ++ q) / y).setWidth 32).toNat = _
    rw [BitVec.toNat_setWidth, Nat.mod_eq_of_lt hquot, BitVec.toNat_udiv]
  have hnat : (number false (r ++ q)).tdiv (number false (y.setWidth 32)) =
      (((r ++ q).toNat / (y.setWidth 32).toNat : ℕ) : ℤ) := Int.ofNat_tdiv _ _
  refine ⟨?_, fun hlt ↦ ?_, fun hy hle ↦ ?_⟩
  · show (((r ++ q) / y).setWidth 32).setWidth 64 == (r ++ q) / y
    rw [beq_iff_eq, ← BitVec.toNat_inj, BitVec.toNat_setWidth, BitVec.toNat_setWidth,
      Nat.mod_eq_of_lt hquot, Nat.mod_eq_of_lt (by omega)]
  · -- both quotients are zero
    have hzero : (r ++ q) / y = 0#64 := BitVec.eq_of_toNat_eq <| by
      rw [BitVec.toNat_udiv, Nat.div_eq_of_lt (by omega)]
      rfl
    have hy : number false (y.setWidth 32) ≠ 0 := fun h ↦ by
      have hval : ((y.setWidth 32).toNat : ℤ) = 0 := h
      omega
    have hrem : (number false (r ++ q)).tmod (number false (y.setWidth 32)) =
        number false (r ++ q) := Int.tmod_eq_of_lt (Int.natCast_nonneg _) (Int.ofNat_lt.mpr hlt)
    rw [divide, if_neg hy, hnat, Nat.div_eq_of_lt hlt, if_pos ⟨Int.le_refl 0, by decide⟩, hrem]
    show Quotient.done _ _ = Quotient.done (((r ++ q) / y).setWidth 32)
      (((r ++ q) - (r ++ q) / y * y).setWidth 32)
    have hlowrem : BitVec.ofInt 32 (number false (r ++ q)) = (r ++ q).setWidth 32 := by
      rw [← setWidth_ofInt (by decide : 32 ≤ 64)]
      exact congrArg (BitVec.setWidth 32) (ofInt_number false (r ++ q))
    rw [hzero, BitVec.zero_mul, BitVec.sub_zero, hlowrem]
    rfl
  · have hpos : 0 < (y.setWidth 32).toNat := Nat.pos_of_ne_zero fun h ↦
      hy (BitVec.eq_of_toNat_eq h)
    rw [divide, if_neg (mt (number_eq_zero false _).mp hy), hnat]
    by_cases hfits : Fits false 32 (((r ++ q).toNat / (y.setWidth 32).toNat : ℕ) : ℤ)
    · rw [if_pos hfits]
      refine .inr ⟨_, _, fun heq ↦ ?_, rfl⟩
      have hnat' := congrArg BitVec.toNat heq
      have hfits' : (r ++ q).toNat / (y.setWidth 32).toNat < 2 ^ 32 := by exact_mod_cast hfits.2
      rw [hlow, BitVec.ofInt_natCast, BitVec.toNat_ofNat, Nat.mod_eq_of_lt hfits'] at hnat'
      -- the host's quotient times its divisor would be too large
      have hone : 1 ≤ (r ++ q).toNat / (y.setWidth 32).toNat := Nat.div_pos hle hpos
      have hmul := Nat.div_mul_le_self (r ++ q).toNat y.toNat
      have hmod := Nat.lt_div_mul_add (a := (r ++ q).toNat) hpos
      have hdlt := (y.setWidth 32).isLt
      rw [hnat'] at hmul
      have hgap : (r ++ q).toNat / (y.setWidth 32).toNat * (y.setWidth 32).toNat + 2 ^ 32 ≤
          (r ++ q).toNat / (y.setWidth 32).toNat * y.toNat := by
        have hsum : (y.setWidth 32).toNat + 2 ^ 32 ≤ y.toNat := by omega
        calc (r ++ q).toNat / (y.setWidth 32).toNat * (y.setWidth 32).toNat + 2 ^ 32
            ≤ (r ++ q).toNat / (y.setWidth 32).toNat * (y.setWidth 32).toNat +
              (r ++ q).toNat / (y.setWidth 32).toNat * 2 ^ 32 :=
                Nat.add_le_add_left (Nat.le_mul_of_pos_left _ hone) _
          _ = (r ++ q).toNat / (y.setWidth 32).toNat * ((y.setWidth 32).toNat + 2 ^ 32) :=
                (Nat.mul_add _ _ _).symm
          _ ≤ (r ++ q).toNat / (y.setWidth 32).toNat * y.toNat := Nat.mul_le_mul_left _ hsum
      omega
    · rw [if_neg hfits]
      exact .inl rfl

end QuotientExactness

section Emitter

variable {c : Alloc LongDivReg} {ctx : Context} {signed wide : Bool} {dq dr : Fin 8}
variable {operand : Operand 32 false (c.reg .src) (c.reg .cc)} {s : WideCpu}

theorem longDivided_zero (hzero : operand.value s = 0) :
    LongDivided c ctx signed wide dq dr operand s := by
  intro mask hmask
  obtain ⟨s', hrun, hkeep⟩ := emitDivusL_zero c (ctx.requesting mask hmask) signed wide dq dr
    operand s hzero
  rw [divide, if_pos ((number_eq_zero signed _).mpr hzero), hrun]
  exact divided_zero hkeep

/-- The code is right if the outcome is that of the host. -/
theorem longDivided_of_eq (hne : operand.value s ≠ 0) {h : HostQuotient}
    (hh : h = hostQuotient signed wide (s.get (dn dq)) (s.get (dn dr)) (operand.host s))
    (hcases : h.moved = true ∨ wide = true)
    (houtcome : divide signed 32 (dividend signed wide (s.get (dn dq)) (s.get (dn dr)))
      (number signed ((operand.host s).setWidth 32)) =
        if h.moved then .done h.quotient h.remainder else .overflow) :
    LongDivided c ctx signed wide dq dr operand s := by
  intro mask hmask
  obtain ⟨s', hrun, hs⟩ := emitDivusL_host c (ctx.requesting mask hmask) signed wide dq dr operand
    s hne
  rw [hrun]
  rw [← hh] at hs
  rw [setWidth_host] at houtcome
  cases hmoved : h.moved with
  | true =>
    rw [hmoved, if_pos rfl] at houtcome
    exact divided_of_done hs hmoved houtcome
  | false =>
    rw [hmoved, if_neg Bool.false_ne_true] at houtcome
    obtain rfl : wide = true := hcases.resolve_left (by rw [hmoved]; exact Bool.false_ne_true)
    exact divided_of_overflow hs hmoved houtcome

/-- It is wrong, with V requested, if the host moves another quotient. -/
theorem LongDivided.outcome (hright : LongDivided c ctx signed wide dq dr operand s)
    (hne : operand.value s ≠ 0) {h : HostQuotient}
    (hh : h = hostQuotient signed wide (s.get (dn dq)) (s.get (dn dr)) (operand.host s))
    (hmoved : h.moved = true) {outcome : Quotient 32}
    (houtcome : divide signed 32 (dividend signed wide (s.get (dn dq)) (s.get (dn dr)))
      (number signed ((operand.host s).setWidth 32)) = outcome) :
    outcome ≠ .overflow ∧ ∀ q r, h.quotient ≠ q → outcome ≠ .done q r := by
  have hdivided := hright srV (by decide)
  obtain ⟨s', hrun, hs⟩ := emitDivusL_host c (ctx.requesting srV (by decide)) signed wide dq dr
    operand s hne
  rw [hrun, ← setWidth_host, houtcome] at hdivided
  rw [← hh] at hs
  exact ⟨fun heq ↦ not_divided_of_overflow hs hmoved rfl heq hdivided,
    fun q r hdiffer heq ↦ not_divided_of_ne hs hmoved hdiffer heq hdivided⟩

theorem longDivided_narrow_iff :
    LongDivided c ctx signed false dq dr operand s ↔
      HostExact signed false (s.get (dn dq)) (s.get (dn dr)) (operand.host s) := by
  have hvalue := setWidth_host s operand
  have hexact : HostExact signed false (s.get (dn dq)) (s.get (dn dr)) (operand.host s) ↔
      ¬ (signed = true ∧ s.get (dn dq) = 0x80000000#32 ∧
        (operand.host s).setWidth 32 = 0xffffffff#32) := by
    cases signed with
    | true => exact not_congr ⟨fun h ↦ ⟨rfl, h⟩, fun h ↦ h.2⟩
    | false => exact iff_of_true trivial fun h ↦ Bool.noConfusion h.1
  by_cases hzero : operand.value s = 0
  · refine iff_of_true (longDivided_zero hzero) (hexact.mpr fun h ↦ ?_)
    rw [hvalue, hzero] at h
    exact absurd h.2.2 (by decide)
  have hne : (operand.host s).setWidth 32 ≠ 0 := hvalue ▸ hzero
  rw [hexact, ← narrow_fits_iff signed (s.get (dn dq)) _ hne]
  refine ⟨fun h ↦ by_contra fun hnot ↦ ?_, fun h ↦
    longDivided_of_eq hzero rfl (.inl rfl) (narrow_eq signed _ _ hne h)⟩
  refine (h.outcome hzero rfl rfl rfl).1 ?_
  rw [divide, if_neg (mt (number_eq_zero signed _).mp hne)]
  exact if_neg hnot

theorem longDivided_wide_iff :
    LongDivided c ctx signed true dq dr operand s ↔
      HostExact signed true (s.get (dn dq)) (s.get (dn dr)) (operand.host s) := by
  have hvalue := setWidth_host s operand
  by_cases hzero : operand.value s = 0
  · refine iff_of_true (longDivided_zero hzero) ?_
    cases signed with
    | true => trivial
    | false => exact .inl (hvalue.trans hzero)
  have hne : (operand.host s).setWidth 32 ≠ 0 := hvalue ▸ hzero
  by_cases hextended : signed = false → operand.host s >>> 32 = 0
  · refine iff_of_true
      (longDivided_of_eq hzero rfl (.inr rfl) (wide_eq signed _ _ hne hextended)) ?_
    cases signed with
    | true => trivial
    | false => exact .inr (.inl (hextended rfl))
  · obtain ⟨rfl, hupper⟩ := Classical.not_imp.mp hextended
    obtain ⟨hmoved, hsmall, hlarge⟩ := wide_upper (s.get (dn dq)) (s.get (dn dr)) hupper
    have hexact : HostExact false true (s.get (dn dq)) (s.get (dn dr)) (operand.host s) ↔
        (s.get (dn dr) ++ s.get (dn dq)).toNat < ((operand.host s).setWidth 32).toNat :=
      ⟨fun h ↦ (h.resolve_left hne).resolve_left hupper, fun h ↦ .inr (.inr h)⟩
    rw [hexact]
    refine ⟨fun h ↦ by_contra fun hnot ↦ ?_, fun h ↦
      longDivided_of_eq hzero rfl (.inr rfl) ((hsmall h).trans (if_pos hmoved).symm)⟩
    obtain ⟨hoverflow, hdone⟩ := h.outcome hzero rfl hmoved rfl
    rcases hlarge hne (Nat.le_of_not_lt hnot) with heq | ⟨q, r, hdiffer, heq⟩
    · exact hoverflow heq
    · exact hdone q r hdiffer heq

end Emitter

/-- The emitted code of a long division is right iff the host's division is. -/
theorem emitDivusL_iff (c : Alloc LongDivReg) (ctx : Context) (signed wide : Bool) (dq dr : Fin 8)
    (operand : Operand 32 false (c.reg .src) (c.reg .cc)) (s : WideCpu) :
    LongDivided c ctx signed wide dq dr operand s ↔
      HostExact signed wide (s.get (dn dq)) (s.get (dn dr)) (operand.host s) := by
  cases wide with
  | false => exact longDivided_narrow_iff
  | true => exact longDivided_wide_iff

/-! ### A divisor behind a long product -/

def longAlloc : Alloc LongDivReg where
  reg
    | .src => 4
    | .cc => 5
    | .tmp => 6
    | .result => 7
    | .tmp2 => 8
    | .qExt => 9
  lower := fun x ↦ by cases x <;> decide
  upper := fun x ↦ by cases x <;> decide
  inj := fun x y h ↦ by cases x <;> cases y <;> first | rfl | exact absurd h (by decide)

def longContext : Context :=
  { staleContext with
    mask := srV
    extWords := 1
    mask_lt := by decide
    extWords_le := by decide }

/-- D2 is 1, with the upper half of a product of 64 bits; D0 is 1. -/
def productCpu : WideCpu where
  regs := fun r ↦
    if r = Branch.mapM68kRegister 2 then 0x100000001
    else if r = Branch.mapM68kRegister 0 then 1
    else 0
  flags := ⟨false, false, false, false⟩
  memory := fun _ ↦ 0
  simd := fun _ ↦ 0

/-- DIVU.L D2,D1:D0 with D1:D0 = 1 and D2 = 1 gives the quotient 0. -/
theorem not_longDivided :
    ¬ ∀ (c : Alloc LongDivReg) (ctx : Context) (signed wide : Bool) (dq dr : Fin 8)
      (operand : Operand 32 false (c.reg .src) (c.reg .cc)) (s : WideCpu),
      LongDivided c ctx signed wide dq dr operand s := by
  intro hall
  have hexact := longDivided_wide_iff.mp
    (hall longAlloc longContext false true 0 1 (.dataRegister 2) productCpu)
  rcases hexact with h | h | h <;> exact absurd h (by decide)

end Emu68.MulDiv

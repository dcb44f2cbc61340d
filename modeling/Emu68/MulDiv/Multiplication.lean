import Emu68.MulDiv.Emitters
import Emu68.MulDiv.Semantics

/-!
The emitted code of MULU and MULS computes the product, and the flags of the product unless just V
and C are requested. Then the helper for the flags emits nothing, and only the V of a product of 32
bits, which has code of its own, is set.
-/

set_option autoImplicit false
set_option relaxedAutoImplicit false

namespace Emu68.MulDiv

open A64 Alu Lib

/-! ### Arithmetic -/

theorem product_signed {w n : ℕ} (x y : BitVec w) :
    x.signExtend n * y.signExtend n = product true n x y := by
  rw [product, number, number, BitVec.ofInt_mul]
  rfl

theorem product_unsigned {w n : ℕ} (x y : BitVec w) :
    x.setWidth n * y.setWidth n = product false n x y := by
  rw [product, number, number, BitVec.ofInt_mul, ← BitVec.ofNat_toNat, ← BitVec.ofNat_toNat]
  exact congrArg₂ (· * ·) (BitVec.ofInt_natCast n _).symm (BitVec.ofInt_natCast n _).symm

/-! ### The flags of a product -/

/-- Where the condition codes are behind the code of an instruction with this mask. -/
def ccrAfter (ctx : Context) (cc : Reg) (s : WideCpu) : BitVec 32 :=
  oldCcr (ctx.ccLoaded || ctx.mask != 0) cc s

theorem logic_fits : ∀ mask : Mask, mask.toNat < 16 → mask ≠ srVC → mask ≠ 0 →
    ∀ n z : Bool, (n && z) = false →
      FlagUpdate.Fits mask (resultFlags n z false) (Caller.logic.update mask ⟨n, z, false, false⟩) := by
  decide +kernel

/-- With only V and C requested nothing is emitted. -/
theorem logic_update_VC (f : Nzcv) : Caller.logic.update srVC f = FlagUpdate.id := by
  have hall : ∀ n z c v : Bool, Caller.logic.update srVC ⟨n, z, c, v⟩ = FlagUpdate.id := by
    decide +kernel
  exact hall f.n f.z f.c f.v

theorem ccrCorrect_VC_iff {n z v : Bool} {old new : BitVec 32}
    (hc : new.getLsbD 1 = old.getLsbD 1) (hx : new.getLsbD 4 = old.getLsbD 4)
    (hrest : ∀ i, 5 ≤ i → new.getLsbD i = old.getLsbD i) :
    CcrCorrect srVC (resultFlags n z v) old new ↔
      new.getLsbD 0 = v ∧ old.getLsbD 1 = false := by
  constructor
  · rintro ⟨hflags, -⟩
    exact ⟨hflags .v (by decide), hc.symm.trans (hflags .c (by decide))⟩
  · rintro ⟨hv, hold⟩
    refine ⟨fun flag ↦ ?_, hrest⟩
    cases flag with
    | x => exact hx
    | n => exact fun hfalse ↦ absurd hfalse (by decide)
    | z => exact fun hfalse ↦ absurd hfalse (by decide)
    | v => exact fun _ ↦ hv
    | c => exact fun _ ↦ hc.trans hold

/-- The flags that stay when only V and C are requested of a product have to be clear. -/
def Stale (ctx : Context) (old : BitVec 32) : Prop :=
  ctx.mask = srVC → old.getLsbD Flag.v.bit = false ∧ old.getLsbD Flag.c.bit = false

theorem logic_ccr_iff {mask : Mask} (hmask : mask.toNat < 16) (h0 : mask ≠ 0) {n z : Bool}
    (hnz : (n && z) = false) (old : BitVec 32) :
    CcrCorrect mask (resultFlags n z false) old
        ((Caller.logic.update mask ⟨n, z, false, false⟩).apply old) ↔
      (mask = srVC → old.getLsbD Flag.v.bit = false ∧ old.getLsbD Flag.c.bit = false) := by
  by_cases hVC : mask = srVC
  · subst hVC
    rw [logic_update_VC, FlagUpdate.apply_id, ccrCorrect_VC_iff rfl rfl fun _ _ ↦ rfl]
    exact ⟨fun h _ ↦ h, fun h ↦ h rfl⟩
  · exact ⟨fun _ h ↦ absurd h hVC, fun _ ↦ (logic_fits mask hmask hVC h0 n z hnz).ccrCorrect old⟩

/-- Without requested flags everything may stay. -/
theorem ccrCorrect_none {n z v : Bool} (old : BitVec 32) :
    CcrCorrect 0 (resultFlags n z v) old old := by
  refine ⟨fun flag ↦ ?_, fun _ _ ↦ rfl⟩
  cases flag with
  | x => exact rfl
  | n => exact fun hfalse ↦ absurd hfalse (by decide)
  | z => exact fun hfalse ↦ absurd hfalse (by decide)
  | v => exact fun hfalse ↦ absurd hfalse (by decide)
  | c => exact fun hfalse ↦ absurd hfalse (by decide)

/-! ### The operand -/

section Load

variable {ρ : Type} {a : Alloc ρ} {x y : ρ} {bits : ℕ}

theorem run_readExtended (operand : Operand 16 true (a.reg x) (a.reg y)) (hxy : x ≠ y)
    (s : WideCpu) : operand.readExtended.2 = a.reg x ∧
      ∃ s', runForward WideOp.effect 0 operand.readExtended.1 s = (s', 0) ∧
        s'.get (a.reg x) = (operand.value s).signExtend 32 ∧
        (∀ i, s'.get64 (dn i) = s.get64 (dn i)) ∧
        (∀ loaded, oldCcr loaded (a.reg y) s' = oldCcr loaded (a.reg y) s) ∧
        s'.get Branch.regPC = (operand.after s).get Branch.regPC := by
  cases operand with
  | dataRegister i =>
    refine ⟨rfl, _, rfl, ?_, fun j ↦ ?_, fun loaded ↦ ?_, WideCpu.get_put_of_ne pc_ne_reg _⟩
    · rw [sxth, WideOp.effect]
      dsimp only
      rw [WideCpu.get_put reg_ne_zero, signedField_low _ (n := 16) (by decide) (by decide)]
      rfl
    · exact WideCpu.get64_put64_of_ne dn_ne_reg _
    · exact oldCcr_put (fun heq ↦ hxy (reg_inj.mp heq.symm)) loaded _ s
  | fetched run value fetches =>
    refine ⟨rfl, _, rfl, ?_, fetches.dn s, fetches.cc s, rfl⟩
    show (run s).get (a.reg x) = (value s).signExtend 32
    rw [WideCpu.get, fetches.operand, if_pos rfl, BitVec.setWidth_setWidth_of_le _ (by decide),
      BitVec.setWidth_eq]

theorem run_read (operand : Operand bits false (a.reg x) (a.reg y)) (s : WideCpu) :
    ∃ s', runForward WideOp.effect 0 operand.read.1 s = (s', 0) ∧
      (∀ i, s'.get64 (dn i) = s.get64 (dn i)) ∧
      (∀ loaded, oldCcr loaded (a.reg y) s' = oldCcr loaded (a.reg y) s) ∧
      s' = operand.after s ∧
      match operand with
      | .dataRegister i => operand.read.2 = dn i
      | .fetched _ _ _ => operand.read.2 = a.reg x ∧
        s'.get64 (a.reg x) = ((operand.value s).setWidth 32).setWidth 64 := by
  cases operand with
  | dataRegister i => exact ⟨s, rfl, fun _ ↦ rfl, fun _ ↦ rfl, rfl, rfl⟩
  | fetched run value fetches =>
    exact ⟨run s, rfl, fetches.dn s, fetches.cc s, rfl, rfl, fetches.operand s⟩

end Load

/-! ### Products of words -/

section Word

variable {a : Alloc MulReg} {ctx : Context} {i : Fin 8}

theorem run_wordFlags (a : Alloc MulReg) (ctx : Context) (i : Fin 8) (s : WideCpu) :
    ∃ s', runForward WideOp.effect 0 (wordFlags a ctx (dn i)) s = (s', 0) ∧
      (∀ j, s'.get64 (dn j) = s.get64 (dn j)) ∧
      ccrAfter ctx (a.reg .cc) s' =
        if ctx.mask = 0 then oldCcr ctx.ccLoaded (a.reg .cc) s
        else (Caller.logic.update ctx.mask (logicFlags (s.get (dn i)))).apply
          (oldCcr ctx.ccLoaded (a.reg .cc) s) := by
  unfold wordFlags ccrAfter
  by_cases h0 : ctx.mask = 0
  · rw [if_pos h0, if_pos h0, h0]
    exact ⟨s, rfl, fun _ ↦ rfl, by simp⟩
  · rw [if_neg h0, if_neg h0]
    have hloaded : (execInsns (modifyCC ctx.ccLoaded (a.reg .cc)) s).get (dn i) = s.get (dn i) := by
      rw [WideCpu.get, (quiet_modifyCC ctx.ccLoaded).get64 (by simp), WideCpu.get]
    have hop : (cmnReg 31 (dn i) .LSL 0).effect (execInsns (modifyCC ctx.ccLoaded (a.reg .cc)) s) =
        ((execInsns (modifyCC ctx.ccLoaded (a.reg .cc)) s).setFlags
          (logicFlags (s.get (dn i))), 0) := by
      rw [cmnReg, WideOp.effect]
      simp only [WideCpu.put_zero, WideCpu.get_zero, Shift.apply, BitVec.shiftLeft_zero, hloaded,
        addFlags_zero]
    obtain ⟨s', hrun, -, hcc, hkeep⟩ := run_flags .logic ctx.mask
      (allocated (a := a) (x := .cc) (y := .tmp) (by decide))
      (allocated (a := a) (x := .cc) (y := .tmp2) (by decide)) s hop
    refine ⟨s', hrun, fun j ↦ hkeep _ (by simp), ?_⟩
    have hloaded' : (ctx.ccLoaded || ctx.mask != 0) = true := by
      rw [bne_iff_ne.mpr h0, Bool.or_true]
    rw [hloaded', oldCcr, if_pos rfl, hcc]

/-- What the emitted code of a multiplication of words leaves. -/
structure WordProduct (ctx : Context) (cc : Reg) (i : Fin 8) (result : BitVec 32)
    (s s' : WideCpu) : Prop where
  value : s'.get (dn i) = result
  others : ∀ j ≠ i, s'.get64 (dn j) = s.get64 (dn j)
  ccr : CcrCorrect ctx.mask (productFlags result false) (oldCcr ctx.ccLoaded cc s)
    (ccrAfter ctx cc s')

/-- The product is in its register; the program counter is advanced, and the flags are moved. -/
theorem wordProduct_iff {code : List WideOp} {result : BitVec 32} {s s₁ : WideCpu}
    (hrun : runForward WideOp.effect 0 code s = (s₁, 0)) (hresult : s₁.get (dn i) = result)
    (hothers : ∀ j ≠ i, s₁.get64 (dn j) = s.get64 (dn j))
    (hcc : oldCcr ctx.ccLoaded (a.reg .cc) s₁ = oldCcr ctx.ccLoaded (a.reg .cc) s) :
    WordProduct ctx (a.reg .cc) i result s
        (s.run (code ++ insns ctx.advance ++ wordFlags a ctx (dn i))) ↔
      Stale ctx (oldCcr ctx.ccLoaded (a.reg .cc) s) := by
  have hadvance := quiet_advancePC ctx.pcRel (2 * (ctx.extWords + 1))
  have hdn : ∀ j, (execInsns ctx.advance s₁).get64 (dn j) = s₁.get64 (dn j) := fun j ↦
    hadvance.get64 (by simp) s₁
  obtain ⟨s', hrun', hkeep, hccr⟩ := run_wordFlags a ctx i (execInsns ctx.advance s₁)
  have hfinal : s.run (code ++ insns ctx.advance ++ wordFlags a ctx (dn i)) = s' := by
    rw [WideCpu.run, List.append_assoc, runForward_piece hrun,
      runForward_piece (runForward_insns _ _), hrun']
  have hvalue : s'.get (dn i) = result := by
    rw [WideCpu.get, hkeep, hdn, ← WideCpu.get, hresult]
  have hold : oldCcr ctx.ccLoaded (a.reg .cc) (execInsns ctx.advance s₁) =
      oldCcr ctx.ccLoaded (a.reg .cc) s :=
    (oldCcr_execInsns hadvance (by simp) _ _).trans hcc
  have hhost : (execInsns ctx.advance s₁).get (dn i) = result := by
    rw [WideCpu.get, hdn, ← WideCpu.get, hresult]
  rw [hfinal]
  have hiff : CcrCorrect ctx.mask (productFlags result false)
      (oldCcr ctx.ccLoaded (a.reg .cc) s) (ccrAfter ctx (a.reg .cc) s') ↔
        Stale ctx (oldCcr ctx.ccLoaded (a.reg .cc) s) := by
    rw [hccr, hold, hhost]
    by_cases h0 : ctx.mask = 0
    · rw [if_pos h0, Stale, h0]
      exact ⟨fun _ h ↦ absurd h (by decide), fun _ ↦ ccrCorrect_none _⟩
    · rw [if_neg h0]
      exact logic_ccr_iff ctx.mask_lt h0 (msb_and_eq_zero result) _
  exact ⟨fun h ↦ hiff.mp h.ccr, fun h ↦
    ⟨hvalue, fun j hj ↦ (hkeep j).trans ((hdn j).trans (hothers j hj)), hiff.mpr h⟩⟩

theorem emitMulsW_iff (operand : Operand 16 true (a.reg .src) (a.reg .cc)) (s : WideCpu) :
    WordProduct ctx (a.reg .cc) i
        (product true 32 ((s.get (dn i)).setWidth 16) (operand.value s)) s
        (s.run (emitMulsW a ctx i operand)) ↔
      Stale ctx (oldCcr ctx.ccLoaded (a.reg .cc) s) := by
  obtain ⟨hreg, s₁, hload, hvalue, hdn, hcc, -⟩ :=
    run_readExtended operand (by decide) s
  unfold emitMulsW
  dsimp only
  rw [hreg]
  have hmultiply : runForward WideOp.effect 0
      ([sxth (dn i) (dn i), .mul (dn i) (dn i) (a.reg .src)] : List WideOp) s₁ =
        ((s₁.put (dn i) (signedField (s₁.get (dn i)) 0 15)).put (dn i)
          (signedField (s₁.get (dn i)) 0 15 * s₁.get (a.reg .src)), 0) := by
    simp [runForward_cons, WideOp.effect, sxth, WideCpu.get_put_ite, runForward]
  refine wordProduct_iff ((runForward_piece hload).trans hmultiply) ?_ (fun j hj ↦ ?_) ?_
  · rw [WideCpu.get_put dn_ne_zero, signedField_low _ (n := 16) (by decide) (by decide), hvalue,
      ← product_signed, WideCpu.get, hdn, ← WideCpu.get]
  · rw [WideCpu.put, WideCpu.put, WideCpu.get64_put64_of_ne (by simpa using hj),
      WideCpu.get64_put64_of_ne (by simpa using hj), hdn]
  · rw [WideCpu.put, WideCpu.put, oldCcr_put reg_ne_dn, oldCcr_put reg_ne_dn, hcc]

theorem emitMuluW_iff (operand : Operand 16 false (a.reg .src) (a.reg .cc)) (s : WideCpu) :
    WordProduct ctx (a.reg .cc) i
        (product false 32 ((s.get (dn i)).setWidth 16) (operand.value s)) s
        (s.run (emitMuluW a ctx i operand)) ↔
      Stale ctx (oldCcr ctx.ccLoaded (a.reg .cc) s) := by
  unfold emitMuluW
  cases operand with
  | dataRegister k =>
    have hmultiply : runForward WideOp.effect 0
        ([.insn (uxth (a.reg .tmp) (dn k)), .insn (uxth (dn i) (dn i)),
          .mul (dn i) (dn i) (a.reg .tmp)] : List WideOp) s =
          (((s.put (a.reg .tmp) (((s.get (dn k)).setWidth 16).setWidth 32)).put (dn i)
            (((s.get (dn i)).setWidth 16).setWidth 32)).put (dn i)
            (((s.get (dn i)).setWidth 16).setWidth 32 * ((s.get (dn k)).setWidth 16).setWidth 32),
            0) := by
      simp [runForward_cons, WideOp.effect, WideCpu.get_put_ite, runForward]
    refine wordProduct_iff hmultiply ?_ (fun j hj ↦ ?_) ?_
    · rw [WideCpu.get_put dn_ne_zero, product_unsigned]
      rfl
    · rw [WideCpu.put, WideCpu.put, WideCpu.put, WideCpu.get64_put64_of_ne (by simpa using hj),
        WideCpu.get64_put64_of_ne (by simpa using hj), WideCpu.get64_put64_of_ne dn_ne_reg]
    · rw [WideCpu.put, WideCpu.put, WideCpu.put, oldCcr_put reg_ne_dn, oldCcr_put reg_ne_dn,
        oldCcr_put (by simp)]
  | fetched run value fetches =>
    have hmultiply : runForward WideOp.effect 0
        ([.operand run] ++ ([.insn (uxth (dn i) (dn i)), .mul (dn i) (dn i) (a.reg .src)] :
          List WideOp)) s =
          (((run s).put (dn i) ((((run s).get (dn i)).setWidth 16).setWidth 32)).put (dn i)
            ((((run s).get (dn i)).setWidth 16).setWidth 32 * (run s).get (a.reg .src)), 0) := by
      simp [runForward_cons, WideOp.effect, WideCpu.get_put_ite, runForward]
    refine wordProduct_iff hmultiply ?_ (fun j hj ↦ ?_) ?_
    · rw [WideCpu.get_put dn_ne_zero, WideCpu.get, WideCpu.get, fetches.dn, fetches.operand,
        if_neg Bool.false_ne_true, BitVec.setWidth_setWidth_of_le _ (by decide : 32 ≤ 64),
        BitVec.setWidth_eq, product_unsigned]
      rfl
    · rw [WideCpu.put, WideCpu.put, WideCpu.get64_put64_of_ne (by simpa using hj),
        WideCpu.get64_put64_of_ne (by simpa using hj), fetches.dn]
    · rw [WideCpu.put, WideCpu.put, oldCcr_put reg_ne_dn, oldCcr_put reg_ne_dn, fetches.cc]

end Word

end Emu68.MulDiv

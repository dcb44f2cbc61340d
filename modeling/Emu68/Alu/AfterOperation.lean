import Emu68.Alu.Operands
import Emu68.MulDiv.Multiplication

/-!
What follows on an operation: the program counter goes on, and the condition codes are updated with
the flags that the host has. A part of a register that is shifted up has the flags of the part.
-/

set_option autoImplicit false
set_option relaxedAutoImplicit false

namespace Emu68.Alu

open A64 Lib MulDiv

/-! ### Parts of a register -/

theorem msb_shifted (size : Size) (x : BitVec 32) :
    (x <<< (32 - size.bits)).msb = (x.setWidth size.bits).msb := by
  cases size <;> rw [BitVec.msb_eq_decide, BitVec.msb_eq_decide, BitVec.toNat_shiftLeft,
    BitVec.toNat_setWidth, Nat.shiftLeft_eq] <;> refine decide_eq_decide.mpr ?_ <;>
    simp only [Size.bits, Size.bytes] <;> omega

theorem zero_shifted (size : Size) (x : BitVec 32) :
    (x <<< (32 - size.bits) == 0) = (x.setWidth size.bits == 0) := by
  rw [Bool.eq_iff_iff, beq_iff_eq, beq_iff_eq, ← BitVec.toNat_inj, ← BitVec.toNat_inj]
  cases size <;> rw [BitVec.toNat_shiftLeft, BitVec.toNat_setWidth, Nat.shiftLeft_eq] <;>
    simp only [Size.bits, Size.bytes, BitVec.toNat_ofNat, BitVec.ofNat_eq_ofNat] <;> omega

theorem replaceLow_all (old x : BitVec 32) : replaceLow old x = x := by
  refine BitVec.eq_of_getLsbD_eq fun i hi ↦ ?_
  rw [getLsbD_replaceLow, if_pos hi, decide_eq_true hi, Bool.true_and]

theorem setWidth_replaceLow {n : ℕ} (hn : n ≤ 32) (old : BitVec 32) (x : BitVec n) :
    (replaceLow old x).setWidth n = x := by
  refine BitVec.eq_of_getLsbD_eq fun k hk ↦ ?_
  rw [BitVec.getLsbD_setWidth, getLsbD_replaceLow, if_pos hk, decide_eq_true hk,
    decide_eq_true (Nat.lt_of_lt_of_le hk hn), Bool.true_and, Bool.true_and]

/-! ### The code behind an operation -/

variable {ρ : Type} {e : Emission ρ} {x : ρ} {size : Size} {s s' : WideCpu} {i : Fin 8}

theorem mask_le (sets : Mask) : (e.mask sets).toNat ≤ sets.toNat := by
  rw [Emission.mask, BitVec.toNat_and]
  exact Nat.and_le_right

theorem view_setD (value : BitVec 32) : e.view (s.put (dn i) value) = (e.view s).setD i value := by
  rw [WideCpu.put, e.view_put_dn, BitVec.setWidth_setWidth_of_le _ (by decide), BitVec.setWidth_eq]

/-- The data registers are not changed by the mode of an operand. -/
theorem after_d (operand : Source e x size false) (s : WideCpu) :
    (operand.after s).d = (e.view s).d := by
  cases operand <;> rfl

theorem after_ccr (operand : Source e x size false) (s : WideCpu) :
    (operand.after s).ccr = (e.view s).ccr := by
  cases operand <;> rfl

theorem target_ccr {ea : Reg} (target : Target ea e.cc) (s : WideCpu) :
    (target.after size s).ccr = (e.view s).ccr := by
  cases target <;> rfl

theorem get_dn_of_view {operand : Source e x size false} (hview : e.view s' = operand.after s) :
    s'.get (dn i) = s.get (dn i) := by
  have hd : (e.view s').d i = (e.view s).d i := by
    rw [hview, after_d]
  exact hd

theorem flags_advance (pcRel offset : ℤ) (s : WideCpu) :
    (execInsns (Branch.advancePC pcRel offset).1 s).flags = s.flags := by
  unfold Branch.advancePC
  dsimp only
  split_ifs
  · show (s.insn (.addImmed _ _ _)).flags = _
    rw [WideCpu.insn_addImmed]
    exact WideCpu.flags_put64 _
  · show (s.insn (.subImmed _ _ _)).flags = _
    rw [WideCpu.insn_subImmed]
    exact WideCpu.flags_put64 _
  · rfl

theorem view_advance (loaded : Bool) (s : WideCpu) :
    view loaded e.cc (execInsns e.advance s) =
      { view loaded e.cc s with pc := (execInsns e.advance s).get Branch.regPC } := by
  have hquiet := quiet_advancePC e.pcRel (2 * (e.extWords + 1))
  have hget : ∀ r, r ≠ Branch.regPC → (execInsns e.advance s).get r = s.get r := fun r hr ↦ by
    rw [WideCpu.get, Translation.advance, hquiet.get64 (by simpa using hr), ← WideCpu.get]
  have hcc : oldCcr loaded e.cc (execInsns e.advance s) = oldCcr loaded e.cc s :=
    oldCcr_execInsns hquiet (by simp [Emission.cc]) _ _
  have hmemory : (execInsns e.advance s).memory = s.memory := (hquiet.execInsns s).1
  unfold view
  rw [hcc, hmemory]
  congr 1
  · funext i
    exact hget _ dn_ne_pc
  · funext i
    exact hget _ an_ne_pc

/-- Code that only updates the condition codes, once they are loaded. -/
theorem view_update {code : List Op} {rs : List FlagReg} (hquiet : Quiet (rs.map e.flag.reg) code)
    (loaded : Bool) (s : WideCpu) :
    view true e.cc (execInsns code s) =
      { view loaded e.cc s with ccr := (execInsns code s).get e.cc } := by
  have hget : ∀ r, (∀ y, r ≠ e.flag.reg y) → (execInsns code s).get r = s.get r := fun r hr ↦ by
    have hnot : r ∉ rs.map e.flag.reg := fun hmem ↦ by
      obtain ⟨y, -, hy⟩ := List.mem_map.mp hmem
      exact hr y hy.symm
    rw [WideCpu.get, hquiet.get64 hnot, ← WideCpu.get]
  unfold view
  rw [oldCcr, if_pos rfl, (hquiet.execInsns s).1]
  congr 1
  · funext i
    exact hget _ fun y ↦ dn_ne_reg
  · funext i
    exact hget _ fun y ↦ an_ne_reg
  · exact hget _ fun y ↦ pc_ne_reg

/-- The flag code updates the condition codes with the flags that the host has. -/
theorem run_flagUpdate (caller : Caller) (mask : Mask) (s : WideCpu) :
    ∃ s', runForward WideOp.effect 0 (insns (modifyCC e.ccLoaded e.cc ++
        caller.emitFlags e.cc (e.flag.reg .tmp) (e.flag.reg .tmp2) mask)) s = (s', 0) ∧
      view true e.cc s' =
        { e.view s with ccr := (caller.update mask s.flags).apply (e.view s).ccr } := by
  have htmp : Allocated e.cc (e.flag.reg .tmp) := allocated (by decide)
  have htmp2 : Allocated e.cc (e.flag.reg .tmp2) := allocated (by decide)
  have hquiet : Quiet ([.cc, .tmp, .tmp2].map e.flag.reg) (modifyCC e.ccLoaded e.cc ++
      caller.emitFlags e.cc (e.flag.reg .tmp) (e.flag.reg .tmp2) mask) :=
    ((quiet_modifyCC e.ccLoaded).mono (by simp +contextual [Emission.cc])).append
      (quiet_emitFlags mask caller)
  obtain ⟨hold, hflags⟩ := execInsns_modifyCC e.ccLoaded htmp.cc_ne s
  obtain ⟨-, hcc⟩ := execInsns_computes (emitFlags_computes htmp htmp2 mask caller) htmp.cc_ne
    (execInsns (modifyCC e.ccLoaded e.cc) s)
  refine ⟨_, runForward_insns _ s, (view_update hquiet e.ccLoaded s).trans ?_⟩
  have hget : (execInsns (modifyCC e.ccLoaded e.cc ++
      caller.emitFlags e.cc (e.flag.reg .tmp) (e.flag.reg .tmp2) mask) s).get e.cc =
        (caller.update mask s.flags).apply (e.view s).ccr := by
    rw [execInsns, List.foldl_append]
    exact hcc.trans (by rw [hold, hflags]; rfl)
  rw [hget]
  rfl

end Emu68.Alu

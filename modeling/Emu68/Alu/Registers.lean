import Emu68.A64.FlagTransfer
import Emu68.A64.WideCode
import Emu68.Branch.Emitters

/-!
The registers and the condition codes of the arithmetic emitters. The m68k registers are mapped for
good, and the allocator hands out others. The flag code writes the condition codes and registers
that were handed out only; what it makes of the condition codes is compared with what the m68k
instruction does to each flag.
-/

set_option autoImplicit false
set_option relaxedAutoImplicit false

namespace Emu68.Alu

open A64 Lib

/-! ### Registers -/

/-- The registers that an emitter is given, by the names it has for them. -/
structure Alloc (ρ : Type) where
  reg : ρ → Reg
  lower : ∀ x, 4 ≤ reg x
  upper : ∀ x, reg x ≤ 11
  inj : Function.Injective reg

def dn (i : Fin 8) : Reg := Branch.mapM68kRegister i

def an (i : Fin 8) : Reg := Branch.mapM68kRegister (8 + i)

variable {ρ : Type} {a : Alloc ρ} {x y : ρ} {i j : Fin 8}

theorem dn_range (i : Fin 8) : 19 ≤ dn i ∧ dn i ≤ 26 := by
  revert i
  decide

@[simp] theorem reg_inj : a.reg x = a.reg y ↔ x = y := a.inj.eq_iff

@[simp] theorem dn_inj : dn i = dn j ↔ i = j := by
  revert i j
  decide

@[simp] theorem an_inj : an i = an j ↔ i = j := by
  revert i j
  decide

@[simp] theorem reg_ne_zero : a.reg x ≠ 31 := fun h ↦ absurd (h ▸ a.upper x) (by decide)

@[simp] theorem reg_ne_pc : a.reg x ≠ Branch.regPC := fun h ↦ absurd (h ▸ a.upper x) (by decide)

@[simp] theorem pc_ne_reg : Branch.regPC ≠ a.reg x := reg_ne_pc.symm

@[simp] theorem dn_ne_zero : dn i ≠ 31 := fun h ↦ absurd (h ▸ (dn_range i).2) (by decide)

@[simp] theorem an_ne_zero : an i ≠ 31 := by
  revert i
  decide

@[simp] theorem dn_ne_pc : dn i ≠ Branch.regPC := by
  revert i
  decide

@[simp] theorem an_ne_pc : an i ≠ Branch.regPC := by
  revert i
  decide

@[simp] theorem pc_ne_dn : Branch.regPC ≠ dn i := dn_ne_pc.symm

@[simp] theorem pc_ne_zero : Branch.regPC ≠ 31 := by decide

@[simp] theorem dn_ne_reg : dn i ≠ a.reg x := fun h ↦
  absurd (Nat.le_trans (dn_range i).1 (h ▸ a.upper x)) (by decide)

@[simp] theorem reg_ne_dn : a.reg x ≠ dn i := dn_ne_reg.symm

theorem allocated (h : y ≠ x) : Allocated (a.reg x) (a.reg y) :=
  ⟨reg_ne_zero, reg_ne_zero, fun heq ↦ h (reg_inj.mp heq)⟩

theorem an_high (i : Fin 8) : 13 ≤ an i := by
  revert i
  decide

@[simp] theorem an_ne_reg : an i ≠ a.reg x := fun h ↦
  absurd (Nat.le_trans (an_high i) (h ▸ a.upper x)) (by decide)

@[simp] theorem reg_ne_an : a.reg x ≠ an i := an_ne_reg.symm

@[simp] theorem dn_ne_an : dn i ≠ an j := by
  revert i j
  decide

@[simp] theorem an_ne_dn : an j ≠ dn i := dn_ne_an.symm

/-! ### Code that writes a few registers only -/

/-- The instruction writes none but these registers, and nothing else but the flags. -/
def quietIn (rs : List Reg) : Op → Bool
  | .strOffsetPreindex _ _ _ => false
  | .movRegToSimd _ _ => false
  | op => match op.dest with
    | some r => decide (r ∈ rs)
    | none => true

def Quiet (rs : List Reg) (code : List Op) : Prop := ∀ op ∈ code, quietIn rs op = true

variable {rs : List Reg} {code first second : List Op} {r : Reg}

theorem Quiet.nil : Quiet rs [] := fun _ hop ↦ absurd hop List.not_mem_nil

theorem Quiet.append (h₁ : Quiet rs first) (h₂ : Quiet rs second) : Quiet rs (first ++ second) :=
  fun op hop ↦ (List.mem_append.mp hop).elim (h₁ op) (h₂ op)

theorem Quiet.dest (h : Quiet rs code) (hr : r ∉ rs) : ∀ op ∈ code, op.dest ≠ some r := by
  intro op hop hdest
  have hquiet := h op hop
  cases op <;> simp_all [quietIn, Op.dest]

theorem insn_quiet {op : Op} (h : quietIn rs op = true) (s : WideCpu) :
    (s.insn op).memory = s.memory ∧ (s.insn op).simd = s.simd := by
  have hput : ∀ (t : Cpu) (rd : Reg) (value : BitVec 32),
      (t.put rd value).memory = t.memory ∧ (t.put rd value).simd = t.simd := by
    intro t rd value
    unfold Cpu.put
    split_ifs <;> exact ⟨rfl, rfl⟩
  show (step s.low op).memory = s.low.memory ∧ (step s.low op).simd = s.low.simd
  cases op with
  | strOffsetPreindex rn rt offset9 => exact absurd h Bool.false_ne_true
  | movRegToSimd slot rn => exact absurd h Bool.false_ne_true
  | nop => exact ⟨rfl, rfl⟩
  | setNzcv rt => exact ⟨rfl, rfl⟩
  | _ => exact hput _ _ _

theorem Quiet.execInsns (h : Quiet rs code) (s : WideCpu) :
    (execInsns code s).memory = s.memory ∧ (execInsns code s).simd = s.simd := by
  induction code generalizing s with
  | nil => exact ⟨rfl, rfl⟩
  | cons op code ih =>
    obtain ⟨hmemory, hsimd⟩ := insn_quiet (h op List.mem_cons_self) s
    obtain ⟨hmemory', hsimd'⟩ := ih (fun op' hop' ↦ h op' (List.mem_cons_of_mem _ hop')) (s.insn op)
    exact ⟨hmemory'.trans hmemory, hsimd'.trans hsimd⟩

theorem Quiet.get64 (h : Quiet rs code) (hr : r ∉ rs) (s : WideCpu) :
    (A64.execInsns code s).get64 r = s.get64 r :=
  get64_execInsns_of_ne (h.dest hr) s

/-! ### The flag code is quiet -/

section FlagCode

variable {cc tmp tmp2 : Reg} {t : Transfer}

theorem quiet_emitClearFlags (flags : Mask) : Quiet [cc, tmp] (emitClearFlags cc tmp flags) := by
  unfold emitClearFlags
  split
  · exact .nil
  split <;> simp [Quiet, quietIn, Op.dest, bicImmed]

theorem quiet_emitSetFlagsConditional (flags : Mask) (cond : Cond) :
    Quiet [cc, tmp] (emitSetFlagsConditional cc tmp flags cond) := by
  unfold emitSetFlagsConditional
  split
  · exact .nil
  split
  · simp [Quiet, quietIn, Op.dest]
  split <;> simp [Quiet, quietIn, Op.dest]

theorem quiet_copyCond (cond : Cond) (lsb : ℕ) : Quiet [cc, tmp] (copyCond cc tmp cond lsb) := by
  simp [Quiet, copyCond, quietIn, Op.dest, cset, bfi]

theorem quiet_copyNZ : Quiet [cc, tmp] (copyNZ cc tmp) := by
  simp [Quiet, copyNZ, quietIn, Op.dest, cinc, bfi]

theorem quiet_setIf {condition : Prop} [Decidable condition] (h : Quiet rs code) :
    Quiet rs (setIf condition code) := by
  unfold setIf
  split
  · exact h
  · exact .nil

theorem quiet_restNZ (rest : Mask) : Quiet [cc, tmp] (restNZ cc tmp rest) :=
  (quiet_setIf (quiet_emitSetFlagsConditional _ _)).append
    (quiet_setIf (quiet_emitSetFlagsConditional _ _))

theorem Quiet.mono {rs' : List Reg} (h : Quiet rs code) (hsub : ∀ r ∈ rs, r ∈ rs') :
    Quiet rs' code := by
  intro op hop
  have hquiet := h op hop
  cases op <;> simp_all [quietIn, Op.dest]

theorem quiet_emitGetNZ00 (mask : Mask) : Quiet [cc, tmp] (emitGetNZ00 cc tmp mask).code := by
  have hclear : ∀ width ror, Quiet [cc, tmp] [bicImmed cc cc width ror] := fun width ror ↦ by
    simp [Quiet, quietIn, Op.dest, bicImmed]
  unfold emitGetNZ00
  dsimp only
  split
  · exact .nil
  split
  · split
    · exact hclear _ _
    · exact hclear _ _
    · exact quiet_copyCond _ _
    · exact quiet_copyCond _ _
    · exact .nil
  split
  · refine Quiet.append ?_ quiet_copyNZ
    split
    · exact hclear _ _
    · exact .nil
  split
  · simp [Quiet, quietIn, Op.dest, bicImmed]
  split
  · simp [Quiet, quietIn, Op.dest, bicImmed]
  · exact .nil

theorem quiet_emitGetNZxx (mask : Mask) : Quiet [cc, tmp] (emitGetNZxx cc tmp mask).code := by
  unfold emitGetNZxx
  dsimp only
  split
  · exact .nil
  split
  · split
    · exact quiet_copyCond _ _
    · exact quiet_copyCond _ _
    · exact .nil
  · exact quiet_copyNZ

theorem quiet_clearRest (h : Quiet [cc, tmp, tmp2] t.code) :
    Quiet [cc, tmp, tmp2] (t.clearRest cc tmp2).code := by
  refine h.append ?_
  split
  · exact (quiet_emitClearFlags _).mono (by simp +contextual)
  · exact .nil

theorem quiet_copyOne (carry : Cond) (withX : Bool) (mask hostFlags : Mask) :
    Quiet [cc, tmp, tmp2] (copyOne cc tmp carry withX mask hostFlags).code := by
  have hcopy : ∀ cond lsb, Quiet [cc, tmp, tmp2] (copyCond cc tmp cond lsb) := fun cond lsb ↦
    (quiet_copyCond cond lsb).mono (by simp +contextual)
  unfold copyOne
  split
  · exact hcopy _ _
  · exact hcopy _ _
  · exact hcopy _ _
  · exact hcopy _ _
  · split
    · exact hcopy _ _
    · exact .nil
  · exact .nil

/-- The four helpers that move all the flags. -/
theorem quiet_getFlags (cc tmp tmp2 : Reg) (mask : Mask) :
    Quiet [cc, tmp, tmp2] (emitGetNZCV cc tmp tmp2 mask).code ∧
      Quiet [cc, tmp, tmp2] (emitGetNZCVX cc tmp tmp2 mask).code ∧
      Quiet [cc, tmp, tmp2] (emitGetNZnCV cc tmp tmp2 mask).code ∧
      Quiet [cc, tmp, tmp2] (emitGetNZnCVX cc tmp tmp2 mask).code := by
  have hcopy : ∀ cond lsb, Quiet [cc, tmp, tmp2] (copyCond cc tmp cond lsb) := fun cond lsb ↦
    (quiet_copyCond cond lsb).mono (by simp +contextual)
  have hget : Quiet [cc, tmp, tmp2] [.getNzcv tmp] := by simp [Quiet, quietIn, Op.dest]
  have hmove : Quiet [cc, tmp, tmp2] [bfxil cc tmp 28 4] := by
    simp [Quiet, quietIn, Op.dest, bfxil]
  have hinvert : Quiet [cc, tmp, tmp2] [.eorImmed tmp tmp 1 3] := by
    simp [Quiet, quietIn, Op.dest]
  have hif : ∀ (condition : Prop) [Decidable condition] {code : List Op},
      Quiet [cc, tmp, tmp2] code → Quiet [cc, tmp, tmp2] (if condition then code else []) := by
    intro condition _ code h
    split
    · exact h
    · exact .nil
  refine ⟨?_, ?_, ?_, ?_⟩
  · unfold emitGetNZCV
    split
    · exact .nil
    split
    · exact quiet_clearRest (quiet_copyOne _ _ _ _)
    · exact quiet_clearRest (hget.append hmove)
  · unfold emitGetNZCVX
    split
    · exact .nil
    split
    · exact quiet_clearRest (quiet_copyOne _ _ _ _)
    split
    · exact quiet_clearRest ((hget.append hmove).append (hif _ (hcopy _ _)))
    · exact quiet_clearRest .nil
  · unfold emitGetNZnCV
    split
    · exact .nil
    split
    · exact quiet_clearRest (quiet_copyOne _ _ _ _)
    · exact quiet_clearRest ((hget.append (hif _ hinvert)).append hmove)
  · unfold emitGetNZnCVX
    split
    · exact .nil
    split
    · exact quiet_clearRest (quiet_copyOne _ _ _ _)
    split
    · exact quiet_clearRest (((hget.append (hif _ hinvert)).append hmove).append (hif _ (hcopy _ _)))
    · exact quiet_clearRest .nil

theorem quiet_emitFlags (mask : Mask) (caller : Caller) :
    Quiet [cc, tmp, tmp2] (caller.emitFlags cc tmp tmp2 mask) := by
  have hset : ∀ flags cond, Quiet [cc, tmp, tmp2] (emitSetFlagsConditional cc tmp flags cond) :=
    fun flags cond ↦ (quiet_emitSetFlagsConditional flags cond).mono (by simp +contextual)
  have hrest : ∀ rest, Quiet [cc, tmp, tmp2] (restNZ cc tmp rest) := fun rest ↦
    (quiet_restNZ rest).mono (by simp +contextual)
  have hall : ∀ carry rest, Quiet [cc, tmp, tmp2] (restXNZVC cc tmp carry rest) := by
    intro carry rest
    refine ((hrest rest).append (quiet_setIf (hset _ _))).append (quiet_setIf ?_)
    split
    · exact hset _ _
    split
    · exact hset _ _
    · exact hset _ _
  obtain ⟨hnzcv, hnzcvx, hnzncv, hnzncvx⟩ := quiet_getFlags cc tmp tmp2 mask
  cases caller with
  | logic => exact ((quiet_emitGetNZ00 mask).mono (by simp +contextual)).append (hrest _)
  | divide => exact ((quiet_emitGetNZxx mask).mono (by simp +contextual)).append (hrest _)
  | add =>
    refine Quiet.append ?_ (hall _ _)
    split
    · exact hnzcvx
    · exact hnzcv
  | sub =>
    refine Quiet.append ?_ (hall _ _)
    split
    · exact hnzncvx
    · exact hnzncv
  | neg =>
    refine Quiet.append ?_ (hall _ _)
    split
    · exact hnzncvx
    · exact hnzncv
  | cmp =>
    exact ((hnzncv.append (hrest _)).append (quiet_setIf (hset _ _))).append (quiet_setIf (hset _ _))

end FlagCode

/-! ### The program counter -/

/-- `EMIT_AdvancePC` changes the program counter only. -/
theorem quiet_advancePC (pcRel offset : ℤ) :
    Quiet [Branch.regPC] (Branch.advancePC pcRel offset).1 := by
  unfold Branch.advancePC
  dsimp only
  split
  · split <;> simp [Quiet, quietIn, Op.dest]
  · exact .nil

theorem quiet_flushPC (pcRel : ℤ) : Quiet [Branch.regPC] (Branch.flushPC pcRel) := by
  unfold Branch.flushPC
  split
  · simp [Quiet, quietIn, Op.dest]
  split
  · simp [Quiet, quietIn, Op.dest]
  · exact .nil

end Emu68.Alu

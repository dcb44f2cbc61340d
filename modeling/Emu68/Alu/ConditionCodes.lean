import Emu68.Alu.Registers

/-!
What an m68k instruction does to each flag, and when the emitted flag code does it. The instruction
sets a flag, leaves it undefined, or leaves it alone. Of a flag that is set only a requested one
counts: the others are overwritten before they are read.
-/

set_option autoImplicit false
set_option relaxedAutoImplicit false

namespace Emu68.Alu

open A64 Lib

inductive FlagValue where
  | set (value : Bool)
  | undefined
  | unaffected
deriving DecidableEq

def FlagValue.Admits (requested : Bool) (old new : Bool) : FlagValue → Prop
  | .set value => requested = true → new = value
  | .undefined => True
  | .unaffected => new = old

def requested (mask : Mask) (flag : Flag) : Bool := flag.mask &&& mask ≠ 0

/-- The condition codes after an instruction whose flags in the mask are requested. -/
structure CcrCorrect (mask : Mask) (value : Flag → FlagValue) (old new : BitVec 32) : Prop where
  flags : ∀ flag : Flag, (value flag).Admits (requested mask flag) (old.getLsbD flag.bit)
    (new.getLsbD flag.bit)
  rest : ∀ i, 5 ≤ i → new.getLsbD i = old.getLsbD i

/-- The update sets the flag to its value, or keeps it, or the flag is not requested. -/
def FlagValue.fits (requested keep set : Bool) : FlagValue → Bool
  | .set value => !requested || !keep && set == value
  | .undefined => true
  | .unaffected => keep && !set

/-- The update does what the instruction does, whatever the old flags are. -/
def FlagUpdate.Fits (mask : Mask) (value : Flag → FlagValue) (u : FlagUpdate) : Prop :=
  (∀ flag : Flag, (value flag).fits (requested mask flag) (u.keep.getLsbD flag.bit)
      (u.set.getLsbD flag.bit) = true) ∧
    u.keep ||| 0x1f#32 = BitVec.allOnes 32 ∧ u.set &&& ~~~0x1f#32 = 0#32

instance (mask : Mask) (value : Flag → FlagValue) (u : FlagUpdate) :
    Decidable (FlagUpdate.Fits mask value u) :=
  inferInstanceAs (Decidable (_ ∧ _))

variable {mask : Mask} {value : Flag → FlagValue} {u : FlagUpdate}

theorem FlagValue.admits_of_fits {wanted keep set : Bool} {v : FlagValue}
    (h : v.fits wanted keep set = true) (old : Bool) :
    v.Admits wanted old (old && keep || set) := by
  cases v with
  | set value =>
    cases keep <;> cases set <;> cases value <;> cases wanted <;> cases old <;>
      simp_all [FlagValue.fits, FlagValue.Admits]
  | undefined => trivial
  | unaffected =>
    cases keep <;> cases set <;> cases old <;> simp_all [FlagValue.fits, FlagValue.Admits]

theorem FlagUpdate.Fits.ccrCorrect (h : FlagUpdate.Fits mask value u) (old : BitVec 32) :
    CcrCorrect mask value old (u.apply old) where
  flags := fun flag ↦ by
    rw [FlagUpdate.apply_bit]
    exact FlagValue.admits_of_fits (h.1 flag) _
  rest := fun _ hi ↦ apply_rest h.2.1 h.2.2 old hi

theorem msb_and_eq_zero {w : ℕ} (x : BitVec w) : (x.msb && x == 0) = false := by
  by_cases hx : x = 0
  · subst hx
    simp
  · rw [beq_eq_false_iff_ne.mpr hx, Bool.and_false]

/-! ### The pieces of the flag code -/

theorem insn_cset {rd : Reg} {cond : Cond} (hcond : cond.toNat < 14)
    (s : WideCpu) :
    s.insn (cset rd cond) = s.put rd (if cond.holds s.flags then 1#32 else 0#32) := by
  refine WideCpu.insn_put rfl ?_
  rw [cset, step, Cpu.get_zero]
  have hinvert := holds_invert cond hcond s.flags.n s.flags.z s.flags.c s.flags.v
  have hlow : s.low.flags = ⟨s.flags.n, s.flags.z, s.flags.c, s.flags.v⟩ := rfl
  rw [hlow, hinvert]
  show _ = s.low.put rd (if cond.holds s.flags then 1#32 else 0#32)
  cases cond.holds s.flags <;> rfl

/-- `RA_ModifyCC` and `RA_GetCC`. -/
def modifyCC (loaded : Bool) (cc : Reg) : List Op :=
  if loaded then [] else [.movSimdToReg cc .sr]

/-- The condition codes before the instruction, which are in their register if it is loaded. -/
def oldCcr (loaded : Bool) (cc : Reg) (s : WideCpu) : BitVec 32 :=
  if loaded then s.get cc else s.simd .sr

variable {cc tmp tmp2 : Reg} {code : List Op} {update : Nzcv → FlagUpdate}

theorem quiet_modifyCC (loaded : Bool) : Quiet [cc] (modifyCC loaded cc) := by
  unfold modifyCC
  split
  · exact .nil
  · simp [Quiet, quietIn, Op.dest]

/-- Quiet code keeps the condition codes, wherever they are. -/
theorem oldCcr_execInsns {code : List Op} {rs : List Reg} {cc : Reg} (h : Quiet rs code)
    (hcc : cc ∉ rs) (loaded : Bool) (s : WideCpu) :
    oldCcr loaded cc (execInsns code s) = oldCcr loaded cc s := by
  unfold oldCcr
  rw [WideCpu.get, h.get64 hcc, (h.execInsns s).2, ← WideCpu.get]

theorem oldCcr_put {cc rd : Reg} (h : cc ≠ rd) (loaded : Bool) (value : BitVec 64) (s : WideCpu) :
    oldCcr loaded cc (s.put64 rd value) = oldCcr loaded cc s := by
  have hsimd : (s.put64 rd value).simd = s.simd := by
    unfold WideCpu.put64
    split_ifs <;> rfl
  unfold oldCcr
  rw [hsimd, WideCpu.get, WideCpu.get64_put64_of_ne h, ← WideCpu.get]

theorem execInsns_modifyCC (loaded : Bool) (hcc : cc ≠ 31) (s : WideCpu) :
    (execInsns (modifyCC loaded cc) s).get cc = oldCcr loaded cc s ∧
      (execInsns (modifyCC loaded cc) s).flags = s.flags := by
  unfold modifyCC oldCcr
  split
  · exact ⟨rfl, rfl⟩
  · have hinsn : s.insn (.movSimdToReg cc .sr) = s.put cc (s.simd .sr) := WideCpu.insn_put rfl rfl
    show (s.insn (.movSimdToReg cc .sr)).get cc = _ ∧ (s.insn (.movSimdToReg cc .sr)).flags = _
    rw [hinsn, WideCpu.get_put hcc, WideCpu.flags_put]
    exact ⟨rfl, rfl⟩

/-- Flag code on the whole machine. -/
theorem execInsns_computes (h : Computes cc code update) (hcc : cc ≠ 31) (s : WideCpu) :
    (execInsns code s).flags = s.flags ∧
      (execInsns code s).get cc = (update s.flags).apply (s.get cc) := by
  have hlow := low_execInsns code s
  obtain ⟨hflags, hregs⟩ := h s.low
  rw [← hlow] at hflags hregs
  have hget : ∀ t : WideCpu, t.low.regs cc = t.get cc := by
    intro t
    rw [← WideCpu.get_low, Cpu.get_of_ne hcc]
  rw [hget, hget] at hregs
  exact ⟨hflags, hregs⟩

/-- The flag code behind an instruction that sets the host flags only. -/
theorem run_flags (caller : Caller) (mask : Mask) {loaded : Bool} {op : WideOp} {f : Nzcv}
    (h : Allocated cc tmp) (h2 : Allocated cc tmp2) (s : WideCpu)
    (hop : op.effect (execInsns (modifyCC loaded cc) s) =
      ((execInsns (modifyCC loaded cc) s).setFlags f, 0)) :
    ∃ s', runForward WideOp.effect 0 (insns (modifyCC loaded cc) ++ [op] ++
        insns (caller.emitFlags cc tmp tmp2 mask)) s = (s', 0) ∧ s'.flags = f ∧
      s'.get cc = (caller.update mask f).apply (oldCcr loaded cc s) ∧
      ∀ r ∉ [cc, tmp, tmp2], s'.get64 r = s.get64 r := by
  obtain ⟨hold, -⟩ := execInsns_modifyCC loaded h.cc_ne s
  obtain ⟨hflags, hcc⟩ := execInsns_computes (emitFlags_computes h h2 mask caller) h.cc_ne
    ((execInsns (modifyCC loaded cc) s).setFlags f)
  refine ⟨_, ?_, hflags, hcc.trans ?_, fun r hr ↦ ?_⟩
  · rw [List.append_assoc, runForward_piece (runForward_insns _ s), List.singleton_append,
      runForward_step hop, runForward_insns]
  · rw [WideCpu.get_setFlags, WideCpu.flags_setFlags, hold]
  · have hcc' : r ∉ [cc] := fun hmem ↦ hr (List.mem_cons.mpr (.inl (List.mem_singleton.mp hmem)))
    rw [(quiet_emitFlags mask caller).get64 hr, WideCpu.get64_setFlags,
      (quiet_modifyCC loaded).get64 hcc']

/-- Flag code, an instruction that sets the host flags only, and flag code behind it. -/
theorem run_between {first second : List Op} {u v : Nzcv → FlagUpdate} {rs : List Reg} {op : WideOp}
    {f : Nzcv} (hfirst : Computes cc first u) (hsecond : Computes cc second v) (hcc : cc ≠ 31)
    (hquiet : Quiet rs first) (hquiet' : Quiet rs second) (s : WideCpu)
    (hop : op.effect (execInsns first s) = ((execInsns first s).setFlags f, 0)) :
    ∃ s', runForward WideOp.effect 0 (insns first ++ [op] ++ insns second) s = (s', 0) ∧
      s'.flags = f ∧ s'.get cc = (v f).apply ((u s.flags).apply (s.get cc)) ∧
      ∀ r ∉ rs, s'.get64 r = s.get64 r := by
  obtain ⟨-, hbefore⟩ := execInsns_computes hfirst hcc s
  obtain ⟨hflags, hafter⟩ := execInsns_computes hsecond hcc ((execInsns first s).setFlags f)
  refine ⟨_, ?_, hflags, hafter.trans ?_, fun r hr ↦ ?_⟩
  · rw [List.append_assoc, runForward_piece (runForward_insns _ s), List.singleton_append,
      runForward_step hop, runForward_insns]
  · rw [WideCpu.get_setFlags, WideCpu.flags_setFlags, hbefore]
  · rw [hquiet'.get64 hr, WideCpu.get64_setFlags, hquiet.get64 hr]

end Emu68.Alu

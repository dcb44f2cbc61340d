import Emu68.Ppc.Decoders

/-!
What the emitted code of branches does to the program counter and to the link register.
-/

set_option autoImplicit false
set_option relaxedAutoImplicit false

namespace Emu68.Ppc

open A64 (Reg Cpu emitLoadImmediate movReg bicImmed cset cinc tstImmed)

/-- The program counter and the link register. -/
def view (s : Cpu) : Word × Word := (s.get regPC, s.get regLR)

/-- Every execution of the code changes the two registers in the given way. -/
def Effect (code : List Op) (f : Word × Word → Word × Word) : Prop :=
  ∀ s s', Runs code s s' → view s' = f (view s)

variable {first second : List Op} {f g : Word × Word → Word × Word} {tmp : Fin 12}

theorem Effect.nil : Effect [] id := by
  rintro s _ rfl
  rfl

theorem Effect.append (h : Effect first f) (h' : Effect second g) :
    Effect (first ++ second) (g ∘ f) := by
  intro s s'' hruns
  obtain ⟨s', hfirst, hsecond⟩ := runs_append.mp hruns
  rw [h' s' s'' hsecond, h s s' hfirst]
  rfl

theorem Effect.one {op : Op} (h : ∀ s s', op.Goes s s' → view s' = f (view s)) :
    Effect [op] f := by
  rintro s s' ⟨_, hop, rfl⟩
  exact h s _ hop

theorem Effect.insn {op : A64.Op} (h : ∀ s, view (A64.step s op) = f (view s)) :
    Effect [.insn op] f :=
  .one fun s s' hop ↦ by
    obtain rfl : s' = A64.step s op := hop
    exact h s

theorem Effect.body : Effect [.body] id :=
  .one fun _ _ ⟨hpc, hlr⟩ ↦ Prod.ext hpc hlr

/-- A jump out that is not taken changes nothing. -/
def Op.isLeave : Op → Bool
  | .bCc _ | .tbz _ _ | .tbnz _ _ => true
  | _ => false

theorem Effect.leave {op : Op} (h : op.isLeave = true) : Effect [op] id :=
  .one fun s s' hop ↦ by
    cases op <;> first
    | exact absurd h Bool.false_ne_true
    | obtain ⟨-, rfl⟩ := hop
      rfl

theorem Effect.leaves : ∀ {code : List Op}, (∀ op ∈ code, op.isLeave = true) → Effect code id
  | [], _ => .nil
  | _ :: _, h => (Effect.leave (h _ List.mem_cons_self)).append
      (Effect.leaves fun op hop ↦ h op (List.mem_cons_of_mem _ hop))

/-! ### Registers -/

theorem view_put_other (s : Cpu) {rd : Reg} (hpc : rd ≠ regPC) (hlr : rd ≠ regLR) (x : Word) :
    view (s.put rd x) = view s := by
  unfold view
  rw [Cpu.get_put_of_ne s hpc.symm, Cpu.get_put_of_ne s hlr.symm]

theorem view_put_pc (s : Cpu) (x : Word) : view (s.put regPC x) = (x, (view s).2) := by
  unfold view
  rw [Cpu.get_put s (by decide), Cpu.get_put_of_ne s (by decide)]

theorem view_put_lr (s : Cpu) (x : Word) : view (s.put regLR x) = ((view s).1, x) := by
  unfold view
  rw [Cpu.get_put s (by decide), Cpu.get_put_of_ne s (by decide)]

theorem tmp_ne_pc (tmp : Fin 12) : (tmp : Reg) ≠ regPC :=
  ne_of_lt (tmp.isLt.trans (by decide))

theorem tmp_ne_lr (tmp : Fin 12) : (tmp : Reg) ≠ regLR :=
  ne_of_lt (tmp.isLt.trans (by decide))

theorem tmp_ne_zero (tmp : Fin 12) : (tmp : Reg) ≠ 31 :=
  ne_of_lt (tmp.isLt.trans (by decide))

/-! ### Constants -/

theorem effect_loadImmediate_pc (value : Word) :
    Effect (loadImmediate regPC value) fun v ↦ (value, v.2) := by
  intro s s' hruns
  rw [runs_insns.mp hruns, A64.exec_emitLoadImmediate (by decide), view_put_pc]

theorem runs_loadImmediate_tmp {value : Word} {s s' : Cpu}
    (h : Runs (loadImmediate tmp value) s s') :
    view s' = view s ∧ s'.get tmp = value := by
  rw [runs_insns.mp h, A64.exec_emitLoadImmediate (tmp_ne_zero tmp)]
  exact ⟨view_put_other s (tmp_ne_pc tmp) (tmp_ne_lr tmp) value,
    Cpu.get_put s (tmp_ne_zero tmp) value⟩

theorem and_of_rest_zero {x mask : Word} (h : x &&& ~~~mask = 0) : x &&& mask = x := by
  have hsplit : (x &&& mask) ||| (x &&& ~~~mask) = x := by
    rw [← BitVec.and_or_distrib_left, show mask ||| ~~~mask = BitVec.allOnes 32 by simp,
      BitVec.and_allOnes]
  rw [h] at hsplit
  exact BitVec.or_zero.symm.trans hsplit

/-- A distance that fits into the operand. -/
theorem small_of_high_zero {x : Word} (h : x &&& 0xfffff000 = 0) :
    BitVec.ofNat 32 (x.toNat % 4096) = x := by
  have hlow : x &&& 0xfff = x := and_of_rest_zero h
  have hvalue : x.toNat % 2 ^ 12 = x.toNat := by
    rw [← Nat.and_two_pow_sub_one_eq_mod]
    exact congrArg BitVec.toNat hlow
  rw [show (4096 : ℕ) = 2 ^ 12 from rfl, hvalue, BitVec.ofNat_toNat, BitVec.setWidth_eq]

/-- A distance that fits into the shifted operand. -/
theorem shifted_of_rest_zero {x : Word} (h : x &&& 0xff000fff = 0) :
    BitVec.ofNat 32 ((x >>> 12).toNat % 4096 * 4096) = x := by
  have hmid : x &&& 0x00fff000 = x := and_of_rest_zero h
  have hlow : x.toNat % 4096 = 0 := by
    have hzero : x &&& 0xfff = 0 := by
      rw [← hmid, BitVec.and_assoc]
      exact BitVec.and_zero
    rw [show (4096 : ℕ) = 2 ^ 12 from rfl, ← Nat.and_two_pow_sub_one_eq_mod]
    exact congrArg BitVec.toNat hzero
  have hhigh : x.toNat < 2 ^ 24 := by
    have hzero : x &&& 0xffffff = x := by
      rw [← hmid, BitVec.and_assoc]
      rfl
    rw [← hzero]
    exact Nat.lt_of_le_of_lt Nat.and_le_right (by decide)
  apply BitVec.eq_of_toNat_eq
  simp only [BitVec.toNat_ofNat, BitVec.toNat_ushiftRight, Nat.shiftRight_eq_div_pow]
  omega

theorem ofInt_of_neg {d : ℤ} (h : d < 0) : BitVec.ofInt 32 d = -BitVec.ofNat 32 d.natAbs := by
  rw [← BitVec.ofInt_natCast, ← BitVec.ofInt_neg]
  congr 1
  omega

theorem ofInt_of_nonneg {d : ℤ} (h : 0 ≤ d) : BitVec.ofInt 32 d = BitVec.ofNat 32 d.natAbs := by
  rw [← BitVec.ofInt_natCast]
  congr 1
  omega

theorem effect_addImmediate (tmp : Fin 12) (delta : ℤ) :
    Effect (addImmediate regPC tmp delta) fun v ↦ (v.1 + BitVec.ofInt 32 delta, v.2) := by
  unfold addImmediate
  dsimp only
  split
  case isTrue hneg =>
    rw [ofInt_of_neg hneg]
    split
    case isTrue hsmall =>
      refine .insn fun s ↦ ?_
      rw [A64.step, small_of_high_zero hsmall, view_put_pc, BitVec.sub_eq_add_neg]
      rfl
    split
    case isTrue hshifted =>
      refine .one fun s s' hop ↦ ?_
      obtain rfl : s' = _ := hop
      rw [shifted_of_rest_zero hshifted, view_put_pc, BitVec.sub_eq_add_neg]
      rfl
    case isFalse =>
      intro s s'' hruns
      obtain ⟨s', hload, _, rfl, rfl⟩ := runs_append.mp hruns
      obtain ⟨hview, htmp⟩ := runs_loadImmediate_tmp hload
      rw [view_put_pc, htmp, ← hview, BitVec.sub_eq_add_neg]
      rfl
  case isFalse hneg =>
    rw [ofInt_of_nonneg (by omega)]
    split
    case isTrue hpos =>
      split
      case isTrue hsmall =>
        refine .insn fun s ↦ ?_
        rw [A64.step, small_of_high_zero hsmall, view_put_pc]
        rfl
      split
      case isTrue hshifted =>
        refine .one fun s s' hop ↦ ?_
        obtain rfl : s' = _ := hop
        rw [shifted_of_rest_zero hshifted, view_put_pc]
        rfl
      case isFalse =>
        intro s s'' hruns
        obtain ⟨s', hload, _, rfl, rfl⟩ := runs_append.mp hruns
        obtain ⟨hview, htmp⟩ := runs_loadImmediate_tmp hload
        rw [A64.step, view_put_pc, htmp, ← hview, A64.Shift.apply, BitVec.shiftLeft_zero]
        rfl
    case isFalse hpos =>
      obtain rfl : delta = 0 := by omega
      rintro s _ rfl
      exact Prod.ext (BitVec.add_zero _).symm rfl

/-! ### Calls, returns and tests -/

theorem ofNat_mod_small {d : ℤ} (h : d.natAbs < 4096) :
    BitVec.ofNat 32 (d.natAbs % 4096) = BitVec.ofNat 32 d.natAbs := by
  rw [Nat.mod_eq_of_lt h]

/-- `add_immed` and `sub_immed` of a small distance. -/
theorem effect_addPC {delta : ℤ} (h : delta.natAbs < 4096) :
    Effect (Context.addSmall regPC regPC delta) fun v ↦ (v.1 + BitVec.ofInt 32 delta, v.2) := by
  unfold Context.addSmall
  split
  case isTrue hnonneg =>
    refine .insn fun s ↦ ?_
    rw [A64.step, ofNat_mod_small h, view_put_pc, ofInt_of_nonneg hnonneg]
    rfl
  case isFalse hneg =>
    refine .insn fun s ↦ ?_
    rw [A64.step, ofNat_mod_small h, view_put_pc, ofInt_of_neg (by omega), BitVec.sub_eq_add_neg]
    rfl

theorem runs_emitLink {offset : ℤ} (h : offset.natAbs < 4096) {s s' : Cpu}
    (hruns : Runs (emitLink offset) s s') :
    s' = s.put regLR (s.get regPC + BitVec.ofInt 32 offset) := by
  unfold emitLink Context.addSmall at hruns
  split at hruns
  case isTrue hnonneg =>
    obtain ⟨_, rfl, rfl⟩ := hruns
    rw [A64.step, ofNat_mod_small h, ofInt_of_nonneg hnonneg]
  case isFalse hneg =>
    obtain ⟨_, rfl, rfl⟩ := hruns
    rw [A64.step, ofNat_mod_small h, ofInt_of_neg (by omega), BitVec.sub_eq_add_neg]

theorem effect_emitLink {offset : ℤ} (h : offset.natAbs < 4096) :
    Effect (emitLink offset) fun v ↦ (v.1, v.1 + BitVec.ofInt 32 offset) := by
  intro s s' hruns
  rw [runs_emitLink h hruns, view_put_lr]
  rfl

/-- The address without its two low bits. -/
def wordAligned (x : Word) : Word := x &&& 0xfffffffc

theorem bitmask_bic : A64.bitmask (32 - 2) (0 - 2) = 0xfffffffc := by decide +kernel

/-- The value of the program counter comes from the link register as it was before. -/
theorem effect_emitReturn (regs : Allocation) (opcode : Word) {offset : ℤ}
    (h : offset.natAbs < 4096) :
    Effect (emitReturn regs opcode offset) fun v ↦
      (wordAligned v.2, if opcode &&& 1 ≠ 0 then v.1 + BitVec.ofInt 32 offset else v.2) := by
  unfold emitReturn
  split
  case isTrue hlink =>
    rintro s s'' ⟨s₁, hbic, hruns⟩
    obtain ⟨s₂, hsecond, _, hmov, rfl⟩ := runs_append.mp hruns
    obtain rfl : s₁ = s.put regs.tmp₂ (wordAligned (s.get regLR)) := by
      rw [wordAligned, ← bitmask_bic]
      exact hbic
    obtain rfl := runs_emitLink h hsecond
    rw [hmov, movReg, A64.step, view_put_pc, view_put_lr,
      view_put_other s (tmp_ne_pc _) (tmp_ne_lr _), Cpu.get_zero, A64.Shift.apply,
      BitVec.shiftLeft_zero, Cpu.get_put_of_ne _ (tmp_ne_lr _), Cpu.get_put s (tmp_ne_zero _),
      Cpu.get_put_of_ne s (tmp_ne_pc _).symm, BitVec.zero_or]
    rfl
  case isFalse hlink =>
    refine .insn fun s ↦ ?_
    rw [bicImmed, A64.step, bitmask_bic, view_put_pc]
    rfl

theorem view_put_flags (s : Cpu) {rd : Reg} (hpc : rd ≠ regPC) (hlr : rd ≠ regLR) (x : Word)
    (f : A64.Nzcv) : view { s.put rd x with flags := f } = view s :=
  view_put_other s hpc hlr x

theorem effect_tst (rn : Reg) (ror : BitVec 8) : Effect [.insn (tstImmed rn 1 ror)] id :=
  .insn fun s ↦ view_put_flags s (by decide) (by decide) _ _

/-- The test of a conditional branch only uses the counter, the flags and a register. -/
theorem effect_testBranch (regs : Allocation) (bo bi : Word) :
    Effect (testBranch regs bo bi).1 id := by
  have hctr : Effect [.insn (.subsImmed regCTR regCTR 1)] id :=
    .insn fun s ↦ view_put_flags s (by decide) (by decide) _ _
  have hcset (cond : A64.Cond) : Effect [.insn (cset regs.tmp cond)] id :=
    .insn fun s ↦ view_put_other s (tmp_ne_pc _) (tmp_ne_lr _) _
  have hcinc (cond : A64.Cond) : Effect [.insn (cinc regs.tmp regs.tmp cond)] id :=
    .insn fun s ↦ view_put_other s (tmp_ne_pc _) (tmp_ne_lr _) _
  unfold testBranch
  dsimp only
  split
  · split
    · exact hctr.append ((hcset _).append (.append .body ((effect_tst _ _).append
        ((hcinc _).append (effect_tst _ _)))))
    · exact hctr
  · exact .nil

end Emu68.Ppc

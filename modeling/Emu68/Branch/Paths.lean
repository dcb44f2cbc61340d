import Mathlib
import Emu68.Branch.Emitters

/-!
The pieces of the emitted code. All of it works in the scratch registers below 12; apart from them
a piece moves the program counter by a known offset (`Moved`). The tests of conditions leave
through the exit block exactly where the condition of the 68040 holds.
-/

set_option autoImplicit false
set_option relaxedAutoImplicit false

namespace Emu68.Branch

open A64 M68k

/-! ### Moving the program counter -/

structure Moved (s s' : A64.Cpu) (v : BitVec 32) : Prop where
  pc : s'.regs regPC = s.regs regPC + v
  regs : ∀ r, 12 ≤ r → r ≠ regPC → s'.regs r = s.regs r
  memory : s'.memory = s.memory

variable {s s' s'' : A64.Cpu} {v w : BitVec 32}

theorem Moved.refl (s : A64.Cpu) : Moved s s 0 := ⟨(add_zero _).symm, fun _ _ _ ↦ rfl, rfl⟩

theorem Moved.trans (h : Moved s s' v) (h' : Moved s' s'' w) : Moved s s'' (v + w) where
  pc := by rw [h'.pc, h.pc, BitVec.add_assoc]
  regs r hr hpc := (h'.regs r hr hpc).trans (h.regs r hr hpc)
  memory := h'.memory.trans h.memory

/-- After code that leaves the program counter alone. -/
theorem Moved.after (h : Moved s s' 0) (h' : Moved s' s'' v) : Moved s s'' v := by
  simpa using h.trans h'

theorem Moved.before (h : Moved s s' v) (h' : Moved s' s'' 0) : Moved s s'' v := by
  simpa using h.trans h'

theorem moved_flags (s : A64.Cpu) (f : Nzcv) : Moved s { s with flags := f } 0 :=
  ⟨(add_zero _).symm, fun _ _ _ ↦ rfl, rfl⟩

theorem moved_simd (s : A64.Cpu) (f : Slot → BitVec 32) : Moved s { s with simd := f } 0 :=
  ⟨(add_zero _).symm, fun _ _ _ ↦ rfl, rfl⟩

theorem ne_of_scratch {r k : Reg} (hr : r < 12) (hk : 12 ≤ k) : r ≠ k :=
  (Nat.lt_of_lt_of_le hr hk).ne

theorem moved_put (s : A64.Cpu) {r : ℕ} (hr : r < 12) (x : BitVec 32) : Moved s (s.put r x) 0 := by
  rw [Cpu.put_of_ne (ne_of_scratch hr (by decide))]
  refine ⟨?_, fun r' (hr' : 12 ≤ r') _ ↦ Function.update_of_ne (hr.trans_le hr').ne' _ _, rfl⟩
  rw [add_zero]
  exact Function.update_of_ne (ne_of_scratch hr (by decide)).symm _ _

theorem moved_pc (s : A64.Cpu) (v : BitVec 32) : Moved s (s.put regPC (s.regs regPC + v)) v := by
  rw [Cpu.put_of_ne (show regPC ≠ 31 by decide)]
  exact ⟨Function.update_self regPC (s.regs regPC + v) s.regs,
    fun r _ hne ↦ Function.update_of_ne hne _ _, rfl⟩

theorem ofNat_toNat_mod {n : ℤ} (h : 0 < n) (h' : n < 4096) :
    BitVec.ofNat 32 (n.toNat % 4096) = BitVec.ofInt 32 n := by
  obtain ⟨k, rfl⟩ := Int.eq_ofNat_of_zero_le h.le
  rw [Int.toNat_natCast, Nat.mod_eq_of_lt (by omega)]
  exact (BitVec.ofInt_natCast 32 k).symm

theorem exec_addOffset (rd : Reg) (offset : ℤ) {tmp : ℕ} {above below : ℤ} (habove : above ≤ 4096)
    (hbelow : below ≤ 4096) (htmp : tmp < 12) (s : A64.Cpu) :
    offset = 0 ∧ exec (addOffset rd tmp above below offset) s = s ∨
      offset ≠ 0 ∧ ∃ s₁, Moved s s₁ 0 ∧ exec (addOffset rd tmp above below offset) s =
        s₁.put rd (s.regs regPC + BitVec.ofInt 32 offset) := by
  have hpc : s.get regPC = s.regs regPC := Cpu.get_of_ne (by decide)
  unfold addOffset
  split
  case isTrue hpos =>
    refine .inr ⟨by omega, s, .refl s, congrArg (s.put rd) ?_⟩
    rw [hpc, ofNat_toNat_mod hpos.1 (by omega)]
  split
  case isTrue hneg =>
    refine .inr ⟨by omega, s, .refl s, congrArg (s.put rd) ?_⟩
    rw [hpc, ofNat_toNat_mod (by omega) (by omega), BitVec.ofInt_neg, BitVec.sub_neg]
  split
  case isTrue hne =>
    refine .inr ⟨hne, s.put tmp (BitVec.ofInt 32 offset), moved_put s htmp _, ?_⟩
    rw [exec_append, exec_emitLoadImmediate (ne_of_scratch htmp (by decide))]
    simp only [exec, List.foldl_cons, List.foldl_nil, step]
    have hpc' : (s.put tmp (BitVec.ofInt 32 offset)).get regPC = s.regs regPC := by
      rw [Cpu.get_of_ne (by decide), (moved_put s htmp _).pc, add_zero]
    rw [hpc', Cpu.get_put s (ne_of_scratch htmp (by decide))]
    simp [Shift.apply]
  case isFalse hzero =>
    exact .inl ⟨not_not.mp hzero, rfl⟩

theorem moved_addOffset {tmp : ℕ} {above below : ℤ} (habove : above ≤ 4096)
    (hbelow : below ≤ 4096) (htmp : tmp < 12) (offset : ℤ) (s : A64.Cpu) :
    Moved s (exec (addOffset regPC tmp above below offset) s) (BitVec.ofInt 32 offset) := by
  rcases exec_addOffset regPC offset habove hbelow htmp s with
    ⟨rfl, hexec⟩ | ⟨-, s₁, hmoved, hexec⟩
  · rw [hexec]
    exact .refl s
  · rw [hexec]
    have hpc : s.regs regPC = s₁.regs regPC := by rw [hmoved.pc, add_zero]
    rw [hpc]
    exact hmoved.after (moved_pc s₁ _)

/-! ### Code of the translator that leaves the program counter alone -/

theorem exec_cons (op : Op) (code : List Op) (s : A64.Cpu) :
    exec (op :: code) s = exec code (step s op) := rfl

theorem moved_append {first second : List Op}
    (h₁ : ∀ s, Moved s (exec first s) 0) (h₂ : ∀ s, Moved s (exec second s) 0) (s : A64.Cpu) :
    Moved s (exec (first ++ second) s) 0 := by
  rw [exec_append]
  exact (h₁ s).after (h₂ _)

/-- The registers that the allocator hands out. -/
structure Context.Allocated (ctx : Context) : Prop where
  cc_lt : ctx.cc < 12
  fpsr_lt : ctx.fpsr < 12
  tmp_lt : ctx.tmp < 12
  tmp2_lt : ctx.tmp2 < 12
  cc_ne : ctx.tmp ≠ ctx.cc
  fpsr_ne : ctx.tmp ≠ ctx.fpsr

variable {ctx : Context}

theorem moved_localExit (ctx : Context) (insnFixup : ℕ) (s : A64.Cpu) :
    Moved s (exec (localExit ctx insnFixup) s) 0 := by
  have hstore : ∀ (slot : Slot) (r : Reg) (s : A64.Cpu),
      Moved s (exec [.movRegToSimd slot r] s) 0 := fun slot r s ↦ moved_simd s _
  have hif : ∀ (b : Bool) (slot : Slot) (r : Reg) (s : A64.Cpu),
      Moved s (exec (if b then [.movRegToSimd slot r] else []) s) 0 := by
    intro b slot r s
    cases b
    · exact .refl s
    · exact hstore slot r s
  refine moved_append (moved_append (moved_append (moved_append (moved_append ?_ ?_) ?_) ?_) ?_)
    ?_ s
  · exact fun s ↦ moved_put (r := 0) s (by decide) _
  · exact hif _ _ _
  · intro s
    cases ctx.fpcrModified with
    | none => exact .refl s
    | some fpcr => exact hstore _ _ s
  · exact hif _ _ _
  · intro s
    rw [exec_cons]
    exact (moved_put (r := 0) s (by decide) _).after (hstore _ _ _)
  · intro s
    cases ctx.valFPIAR with
    | none => exact .refl s
    | some value =>
      refine moved_append (fun s ↦ ?_) (hstore _ _) s
      rw [exec_emitLoadImmediate (by decide)]
      exact moved_put s (by decide) _

theorem run_ops (code : List Op) (rest : List Item) (s : A64.Cpu) :
    run 0 (ops code ++ rest) s = run 0 rest (exec code s) := by
  induction code generalizing s with
  | nil => rfl
  | cons op code ih => exact ih (step s op)

theorem run_ops_nil (code : List Op) (s : A64.Cpu) :
    run 0 (ops code) s = .fallsThrough (exec code s) := by
  have hrun := run_ops code [] s
  rwa [List.append_nil] at hrun

theorem getOffsetPC_eq {pcRel offset : ℤ} (h : -127 ≤ pcRel + offset ∧ pcRel + offset ≤ 127) :
    getOffsetPC pcRel offset = ([], pcRel + offset) := by
  unfold getOffsetPC
  exact if_neg (by omega)

end Emu68.Branch

import Emu68.Ppc.Translator

/-!
The bounds of a unit are moved to the code pointer that an instruction leaves, the upper one four
words further. Every instruction is translated at a pointer that was seen before, so its words are
within the bounds. The bounds are pointers, but the unit keeps 32 bits of them: when the upper bound
reaches the end of the address space it becomes zero.
-/

set_option autoImplicit false
set_option relaxedAutoImplicit false

namespace Emu68.Ppc

open Exec (crcInput mem_crcInput)

variable {env : Environment} {localState : ℕ → CodePtr} {entry : CodePtr} {regs : Allocation}
  {t t' : Translation}

/-! ### One instruction -/

/-- An instruction is one word, or two if the second one completes a constant. -/
theorem emitINSN_count {tc tc' : Context} {n : ℕ} (h : emitINSN env regs tc = some (tc', n)) :
    n ≤ 2 := by
  unfold emitINSN at h
  dsimp only at h
  split at h
  all_goals
    first
    | obtain ⟨_, _, heq⟩ := Option.map_eq_some_iff.mp h
      obtain ⟨-, rfl⟩ := Prod.mk.inj heq
      exact Nat.le_succ 1
    | skip
  · simp only [Option.some.injEq, emitAddis] at h
    split at h <;> obtain ⟨-, rfl⟩ := Prod.mk.inj h
    · exact le_rfl
    · exact Nat.le_succ 1
  · cases h
    exact Nat.le_succ 1
  · cases h
    exact Nat.le_succ 1

/-! ### Every translation -/

/-- A code pointer with four words of the address space from it on, the last byte left out. -/
def HasRoom (pc : CodePtr) : Prop := pc.toNat + 16 < 2 ^ 32

instance (pc : CodePtr) : Decidable (HasRoom pc) :=
  inferInstanceAs (Decidable (pc.toNat + 16 < 2 ^ 32))

/-- The instruction leaves such a code pointer. -/
def StaysBelow (env : Environment) (t : Translation) (regs : Allocation) : Prop :=
  ∀ tc n, emitINSN env regs t.tc = some (tc, n) → HasRoom tc.codePtr

/-- The instruction words are within the recorded bounds, and both checksums depend on them. -/
def Covers (t : Translation) (entry : CodePtr) : Prop :=
  ∀ w ∈ t.words, (t.unit entry).ptuPPCLow.toNat ≤ w.toNat ∧
    w.toNat + 4 ≤ (t.unit entry).ptuPPCHigh.toNat ∧
    ∀ k : ℕ, k < 4 →
      (w.toNat + k : ℤ) ∈ t.checksummed ∧ (w.toNat + k : ℤ) ∈ (t.unit entry).verified

/-- The invariant: the code pointer and the words are within bounds of 32 bits. -/
structure Bounded (t : Translation) : Prop where
  low : t.ppcLow.toNat ≤ t.tc.codePtr.toNat
  high : t.tc.codePtr.toNat + 16 ≤ t.ppcHigh.toNat
  room : t.ppcHigh.toNat < 2 ^ 32
  words : ∀ w ∈ t.words, t.ppcLow.toNat ≤ w.toNat ∧ w.toNat + 4 ≤ t.ppcHigh.toNat

theorem toNat_add_sixteen {pc : CodePtr} (h : HasRoom pc) : (pc + 16).toNat = pc.toNat + 16 := by
  unfold HasRoom at h
  rw [BitVec.toNat_add]
  exact Nat.mod_eq_of_lt (show pc.toNat + 16 < 2 ^ 64 by omega)

theorem Bounded.start (hentry : HasRoom entry) : Bounded (startTranslation localState entry) where
  low := le_rfl
  high := (toNat_add_sixteen hentry).ge
  room := (toNat_add_sixteen hentry).trans_lt hentry
  words _ hw := absurd hw List.not_mem_nil

theorem Bounded.same (h : Bounded t) (hsame : SameCode t t') : Bounded t' := by
  obtain ⟨htc, hlow, hhigh, hwords, -⟩ := hsame
  exact ⟨htc ▸ hlow ▸ h.low, htc ▸ hhigh ▸ h.high, hhigh ▸ h.room, hwords ▸ hlow ▸ hhigh ▸ h.words⟩

theorem mem_wordsAt {pc : CodePtr} {n : ℕ} (hn : n ≤ 2) (hroom : HasRoom pc) {w : Word}
    (hw : w ∈ wordsAt pc n) : pc.toNat ≤ w.toNat ∧ w.toNat + 4 ≤ pc.toNat + 8 := by
  simp only [wordsAt, List.mem_map, List.mem_range] at hw
  obtain ⟨k, hk, rfl⟩ := hw
  have hvalue : ((pc + BitVec.ofNat 64 (4 * k)).setWidth 32).toNat = pc.toNat + 4 * k := by
    unfold HasRoom at hroom
    simp only [BitVec.toNat_setWidth, BitVec.toNat_add, BitVec.toNat_ofNat]
    omega
  omega

/-- The bounds grow, and they take in the next code pointer. -/
theorem Bounded.extend (h : Bounded t) {tc : Context} {n : ℕ} (hn : n ≤ 2)
    (hroom : HasRoom tc.codePtr) :
    Bounded (t.afterInstruction tc n) := by
  have hsixteen := toNat_add_sixteen hroom
  have hhere : HasRoom t.tc.codePtr := h.high.trans_lt h.room
  have hlow : (if tc.codePtr < t.ppcLow then tc.codePtr else t.ppcLow).toNat
      = min tc.codePtr.toNat t.ppcLow.toNat := by
    split <;> rename_i hlt <;> rw [BitVec.lt_def] at hlt <;> omega
  have hhigh : (if t.ppcHigh < tc.codePtr + 16 then tc.codePtr + 16 else t.ppcHigh).toNat
      = max (tc.codePtr.toNat + 16) t.ppcHigh.toNat := by
    split <;> rename_i hlt <;> rw [BitVec.lt_def] at hlt <;> omega
  have hptr := h.low
  have hend := h.high
  refine ⟨?_, ?_, ?_, fun w hw ↦ ?_⟩
  · exact hlow.trans_le (min_le_left _ _)
  · exact (le_max_left _ _).trans hhigh.ge
  · exact hhigh.trans_lt (max_lt hroom h.room)
  · have hwithin : t.ppcLow.toNat ≤ w.toNat ∧ w.toNat + 4 ≤ t.ppcHigh.toNat := by
      rcases List.mem_append.mp hw with hold | hnew
      · exact h.words w hold
      · have hword := mem_wordsAt hn hhere hnew
        omega
    exact ⟨hlow.trans_le ((min_le_right _ _).trans hwithin.1),
      hwithin.2.trans ((le_max_right _ _).trans hhigh.ge)⟩

theorem Bounded.step (h : Bounded t) (hok : StaysBelow env t regs)
    (hstep : translateStep env entry t regs = some t') : Bounded t' := by
  rcases (translateStep_cases hstep).2 with hsame | ⟨tc, n, hemit, hsame⟩
  · exact h.same hsame
  · exact (h.extend (emitINSN_count hemit) (hok tc n hemit)).same hsame

theorem Bounded.covers (h : Bounded t) : Covers t entry := by
  have hhigh : (t.ppcHigh.setWidth 32).toNat = t.ppcHigh.toNat := by
    rw [BitVec.toNat_setWidth, Nat.mod_eq_of_lt h.room]
  have hle : t.ppcLow.toNat ≤ t.ppcHigh.toNat := h.low.trans (by have := h.high; omega)
  have hlow : (t.ppcLow.setWidth 32).toNat = t.ppcLow.toNat := by
    rw [BitVec.toNat_setWidth, Nat.mod_eq_of_lt (hle.trans_lt h.room)]
  have hint {p : CodePtr} (hp : p.toNat < 2 ^ 32) : p.toInt = p.toNat :=
    BitVec.toInt_eq_toNat_of_lt (by omega)
  intro w hw
  obtain ⟨hfrom, hto⟩ := h.words w hw
  refine ⟨hlow.trans_le hfrom, hto.trans hhigh.ge, fun k hk ↦ ⟨?_, ?_⟩⟩
  · rw [Translation.checksummed, hint h.room, hint (hle.trans_lt h.room)]
    exact mem_crcInput (by omega) (by omega)
  · refine mem_crcInput ?_ ?_
    · show ((t.ppcLow.setWidth 32).toNat : ℤ) ≤ _
      omega
    · show _ < ((t.ppcHigh.setWidth 32).toNat : ℤ)
      omega

/-- A translation whose code pointer stays in the address space has all its words in the bounds. -/
theorem translating_covers (hentry : HasRoom entry)
    (h : Translating env localState entry (StaysBelow env) t) : Covers t entry :=
  (Lib.Reachable.invariant Bounded (Bounded.start hentry)
    (fun _ _ _ hbounded hok hstep ↦ hbounded.step hok hstep) h).covers

/-- A memory full of the same absolute branch, `ba` to the last four words of the address space. -/
def branchesToTop : Environment := ⟨fun _ ↦ 0x4bfffff2, 0x001fff80, ⟨fun _ ↦ false⟩⟩

/-- A memory full of `blr`. -/
def returns : Environment := ⟨fun _ ↦ 0x4e800020, 0x001fff80, ⟨fun _ ↦ false⟩⟩

theorem translating_covers_return :
    HasRoom 0x1000 ∧ ∃ t, translateStep returns 0x1000 (startTranslation (fun _ ↦ 0) 0x1000)
      firstRegs = some t ∧ t.words = [0x1000] ∧ t.goesOn returns = false ∧ Covers t 0x1000 := by
  have hroom : HasRoom 0x1000 := by decide
  refine ⟨hroom, _, rfl, by decide +kernel, by decide +kernel, ?_⟩
  have hstays : StaysBelow returns (startTranslation (fun _ ↦ 0) 0x1000) firstRegs := by
    intro tc n hemit
    cases hemit
    decide +kernel
  exact translating_covers hroom (.tail firstRegs .refl hstays rfl)

/-- The unit with the branch keeps the bounds `0x1000` and `0`. -/
theorem covers_wraps : ¬ ∀ (env : Environment) (localState : ℕ → CodePtr) (entry : Word)
    (t : Translation), Translating env localState (entry.setWidth 64) (fun _ _ ↦ True) t →
      t.goesOn env = false → Covers t (entry.setWidth 64) := by
  intro hall
  obtain ⟨t, hstep, hwords, hend, hhigh⟩ : ∃ t, translateStep branchesToTop 0x1000
      (startTranslation (fun _ ↦ 0) 0x1000) firstRegs = some t ∧ t.words = [0x1000] ∧
      t.goesOn branchesToTop = false ∧ (t.unit 0x1000).ptuPPCHigh = 0 :=
    ⟨_, rfl, by decide +kernel, by decide +kernel, by decide +kernel⟩
  have hcovers := hall branchesToTop (fun _ ↦ 0) 0x1000 t
    (.tail firstRegs .refl trivial hstep) hend 0x1000 (by simp [hwords])
  have hle := hcovers.2.1
  rw [show (0x1000 : Word).setWidth 64 = (0x1000 : CodePtr) from rfl, hhigh] at hle
  exact absurd hle (by decide)

end Emu68.Ppc

import Emu68.M68k.Translator

/-!
The bounds of a unit are moved to the code pointer that an instruction leaves. An instruction that
goes on behind its words has them within the bounds. A branch that is followed backwards leaves the
pointer at its target, so its own words are within the bounds only if the translation has been
further up before.
-/

set_option autoImplicit false
set_option relaxedAutoImplicit false

namespace Emu68.M68k

open Exec (crcInput mem_crcInput)

variable {env : Environment} {localState : ℕ → CodePtr} {entry : CodePtr} {others : Straight}
  {t t' : Translation}

/-! ### One instruction -/

/-- The end of the words that the next instruction consumes. -/
def insnEnd (env : Environment) (t : Translation) (others : Straight) : ℕ :=
  t.ctx.codePtr.toNat + 2 * (emitINSN env others t.ctx).consumed

/-- The translation has been behind the words of the instruction before. -/
def PassedBefore (env : Environment) (t : Translation) (others : Straight) : Prop :=
  insnEnd env t others ≤ t.m68kHigh.toNat

/-- A branch is followed to an address in the address space that is not below the end of the branch;
another instruction advances, in the address space, over all words that it consumes. -/
def GoesForward (env : Environment) (t : Translation) (others : Straight) : Prop :=
  match (emitINSN env others t.ctx).followed with
  | some target => insnEnd env t others ≤ target.toNat
  | none => (emitINSN env others t.ctx).consumed ≤ (emitINSN env others t.ctx).advance

/-- The instruction ends in the address space, or its target is there if it is followed. -/
def StaysBelow (env : Environment) (t : Translation) (others : Straight) : Prop :=
  match (emitINSN env others t.ctx).followed with
  | some target => target.toNat < 2 ^ 32
  | none => t.ctx.codePtr.toNat + 2 * (emitINSN env others t.ctx).advance < 2 ^ 32

/-- An instruction that is translated does not leave the code pointer below words that it has never
been behind. -/
def KeepsUp (env : Environment) (t : Translation) (others : Straight) : Prop :=
  t.loopTooLong env = false →
    StaysBelow env t others ∧ (GoesForward env t others ∨ PassedBefore env t others)

theorem after_straight {ctx : Context} {d : Decoded} (hfollowed : d.followed = none)
    (hroom : ctx.codePtr.toNat + 2 * d.advance < 2 ^ 32) :
    (ctx.after d).codePtr.toNat = ctx.codePtr.toNat + 2 * d.advance := by
  rw [Context.after, hfollowed]
  show (ctx.codePtr + BitVec.ofNat 64 (2 * d.advance)).toNat = _
  rw [BitVec.toNat_add, BitVec.toNat_ofNat]
  omega

/-- The code pointer behind the instruction is in the address space. -/
theorem StaysBelow.codePtr_lt (h : StaysBelow env t others) :
    (t.ctx.after (emitINSN env others t.ctx)).codePtr.toNat < 2 ^ 32 := by
  unfold StaysBelow at h
  split at h
  case h_1 target hfollowed =>
    rw [Context.after, hfollowed]
    exact h
  case h_2 hfollowed =>
    rwa [after_straight hfollowed h]

/-- The code pointer or the upper bound is behind the words of the instruction. -/
theorem insnEnd_le (hbelow : StaysBelow env t others)
    (h : GoesForward env t others ∨ PassedBefore env t others) :
    insnEnd env t others ≤
      max t.m68kHigh.toNat (t.ctx.after (emitINSN env others t.ctx)).codePtr.toNat := by
  rcases h with hforward | hpassed
  · refine le_max_of_le_right ?_
    unfold StaysBelow at hbelow
    unfold GoesForward at hforward
    split at hforward
    case h_1 target hfollowed =>
      rw [Context.after, hfollowed]
      exact hforward
    case h_2 hfollowed =>
      rw [hfollowed] at hbelow
      rw [after_straight hfollowed hbelow, insnEnd]
      omega
  · exact le_max_of_le_left hpassed

/-! ### Every translation -/

/-- The consumed words are within the recorded bounds, and both checksums depend on them. -/
def Covers (t : Translation) : Prop :=
  ∀ w ∈ t.words, t.unit.mtM68kLow.toNat ≤ w.toNat ∧ w.toNat + 2 ≤ t.unit.mtM68kHigh.toNat ∧
    ∀ k : ℕ, k < 2 → (w.toNat + k : ℤ) ∈ t.checksummed ∧ (w.toNat + k : ℤ) ∈ t.unit.verified

/-- The invariant: the code pointer and the consumed words are within bounds of 32 bits. -/
structure Bounded (t : Translation) : Prop where
  low : t.m68kLow.toNat ≤ t.ctx.codePtr.toNat
  high : t.ctx.codePtr.toNat ≤ t.m68kHigh.toNat
  room : t.m68kHigh.toNat < 2 ^ 32
  words : ∀ w ∈ t.words, t.m68kLow.toNat ≤ w.toNat ∧ w.toNat + 2 ≤ t.m68kHigh.toNat

/-- The first two words of a unit are in the address space, the last byte of it left out. -/
def HasRoom (entry : CodePtr) : Prop := entry.toNat + 4 < 2 ^ 32

instance (entry : CodePtr) : Decidable (HasRoom entry) :=
  inferInstanceAs (Decidable (entry.toNat + 4 < 2 ^ 32))

theorem Bounded.start (hentry : HasRoom entry) : Bounded (startTranslation localState entry) := by
  have hhigh : (entry + 4).toNat = entry.toNat + 4 := by
    unfold HasRoom at hentry
    rw [BitVec.toNat_add]
    exact Nat.mod_eq_of_lt (show entry.toNat + 4 < 2 ^ 64 by omega)
  exact {
    low := le_rfl
    high := (Nat.le_add_right _ 4).trans hhigh.ge
    room := hhigh.trans_lt hentry
    words := fun w hw ↦ absurd hw List.not_mem_nil }

theorem Bounded.same (h : Bounded t) (hsame : SameCode t t') : Bounded t' := by
  obtain ⟨hctx, hlow, hhigh, hwords⟩ := hsame
  exact ⟨hctx ▸ hlow ▸ h.low, hctx ▸ hhigh ▸ h.high, hhigh ▸ h.room, hwords ▸ hlow ▸ hhigh ▸ h.words⟩

theorem mem_wordsAt {pc : CodePtr} {n : ℕ} (hroom : pc.toNat + 2 * n < 2 ^ 32) {w : Address}
    (hw : w ∈ wordsAt pc n) : pc.toNat ≤ w.toNat ∧ w.toNat + 2 ≤ pc.toNat + 2 * n := by
  simp only [wordsAt, List.mem_map, List.mem_range] at hw
  obtain ⟨k, hk, rfl⟩ := hw
  have hvalue : ((pc + BitVec.ofNat 64 (2 * k)).setWidth 32).toNat = pc.toNat + 2 * k := by
    simp only [BitVec.toNat_setWidth, BitVec.toNat_add, BitVec.toNat_ofNat]
    omega
  omega

/-- The bounds grow, and they take in the next code pointer and the words behind the last one. -/
theorem Bounded.after (h : Bounded t) (hbelow : StaysBelow env t others)
    (hok : GoesForward env t others ∨ PassedBefore env t others) :
    Bounded (t.afterInstruction (emitINSN env others t.ctx)) := by
  have hroom := hbelow.codePtr_lt
  have hend := insnEnd_le hbelow hok
  set d := emitINSN env others t.ctx with hd
  have hlow : (t.afterInstruction d).m68kLow.toNat
      = min (t.ctx.after d).codePtr.toNat t.m68kLow.toNat := by
    show (if (t.ctx.after d).codePtr < t.m68kLow then _ else _ : CodePtr).toNat = _
    split <;> rename_i hlt <;> rw [BitVec.lt_def] at hlt <;> omega
  have hhigh : (t.afterInstruction d).m68kHigh.toNat
      = max t.m68kHigh.toNat (t.ctx.after d).codePtr.toNat := by
    show (if t.m68kHigh < (t.ctx.after d).codePtr then _ else _ : CodePtr).toNat = _
    split <;> rename_i hlt <;> rw [BitVec.lt_def] at hlt <;> omega
  have hmax : max t.m68kHigh.toNat (t.ctx.after d).codePtr.toNat < 2 ^ 32 := max_lt h.room hroom
  refine ⟨hlow.trans_le (min_le_left _ _), (le_max_right _ _).trans hhigh.ge,
    hhigh.trans_lt hmax, fun w hw ↦ ?_⟩
  have hwithin : t.m68kLow.toNat ≤ w.toNat ∧
      w.toNat + 2 ≤ max t.m68kHigh.toNat (t.ctx.after d).codePtr.toNat := by
    rcases List.mem_append.mp hw with hold | hnew
    · obtain ⟨hfrom, hto⟩ := h.words w hold
      exact ⟨hfrom, le_max_of_le_left hto⟩
    · obtain ⟨hfrom, hto⟩ := mem_wordsAt (hend.trans_lt hmax) hnew
      exact ⟨h.low.trans hfrom, hto.trans hend⟩
  exact ⟨hlow.trans_le ((min_le_right _ _).trans hwithin.1), hwithin.2.trans hhigh.ge⟩

theorem Bounded.step (h : Bounded t) (hok : KeepsUp env t others)
    (hstep : translateStep env entry t others = some t') : Bounded t' := by
  rcases translateStep_cases hstep with hsame | ⟨hlong, hsame⟩
  · exact h.same hsame
  · obtain ⟨hbelow, hforward⟩ := hok hlong
    exact (h.after hbelow hforward).same hsame

theorem Bounded.covers (h : Bounded t) : Covers t := by
  have hle : t.m68kLow.toNat ≤ t.m68kHigh.toNat := h.low.trans h.high
  have hkept {p : CodePtr} (hp : p.toNat < 2 ^ 32) : (p.setWidth 32).toNat = p.toNat := by
    rw [BitVec.toNat_setWidth, Nat.mod_eq_of_lt hp]
  have hint {p : CodePtr} (hp : p.toNat < 2 ^ 32) : p.toInt = p.toNat :=
    BitVec.toInt_eq_toNat_of_lt (by omega)
  have hhigh : t.unit.mtM68kHigh.toNat = t.m68kHigh.toNat := hkept h.room
  have hlow : t.unit.mtM68kLow.toNat = t.m68kLow.toNat := hkept (hle.trans_lt h.room)
  intro w hw
  obtain ⟨hfrom, hto⟩ := h.words w hw
  refine ⟨hlow.trans_le hfrom, hto.trans hhigh.ge, fun k hk ↦ ⟨?_, ?_⟩⟩
  · rw [Translation.checksummed, hint h.room, hint (hle.trans_lt h.room)]
    exact mem_crcInput (by omega) (by omega)
  · rw [UnitBounds.verified, hhigh, hlow]
    exact mem_crcInput (by omega) (by omega)

/-- A translation whose instructions keep up with the bounds has all consumed words in them. -/
theorem translation_covers (hentry : HasRoom entry)
    (h : Translating env localState entry (KeepsUp env) t) : Covers t :=
  (Lib.Reachable.invariant Bounded (Bounded.start hentry)
    (fun _ _ _ hbounded hok hstep ↦ hbounded.step hok hstep) h).covers

/-! ### A call and a loop -/

/-- What the decoder of `nop` does. -/
def nop : Straight := ⟨1, 1, 1, Nat.one_pos, false⟩

/-- At `0xf00000` there is a call of the word after the next one, elsewhere `nop`. A unit has two
instructions. -/
def callsForward : Environment where
  image a := if a = 0xf00000 then 0x6102 else 0x4e71
  control := 0x021fff80
  disableFPU := false

theorem translation_covers_call :
    HasRoom 0xf00000 ∧ ∃ t, Translating callsForward (fun _ ↦ 0) 0xf00000 (KeepsUp callsForward) t ∧
      t.words = [0xf00000, 0xf00004] ∧ t.goesOn callsForward = false ∧ Covers t := by
  have hroom : HasRoom 0xf00000 := by decide
  have hcall : KeepsUp callsForward (startTranslation (fun _ ↦ 0) 0xf00000) nop :=
    fun _ ↦ ⟨show (0xf00004 : CodePtr).toNat < 2 ^ 32 by decide +kernel,
      .inl (show 0xf00002 ≤ (0xf00004 : CodePtr).toNat by decide +kernel)⟩
  obtain ⟨t, htranslating, hwords, hend⟩ : ∃ t,
      Translating callsForward (fun _ ↦ 0) 0xf00000 (KeepsUp callsForward) t ∧
      t.words = [0xf00000, 0xf00004] ∧ t.goesOn callsForward = false := by
    refine ⟨_, .tail nop (.tail nop .refl hcall rfl) (fun _ ↦ ⟨?_, .inl ?_⟩) rfl,
      by decide +kernel, by decide +kernel⟩
    · show 0xf00004 + 2 * 1 < 2 ^ 32
      decide +kernel
    · show 1 ≤ 1
      exact le_rfl
  exact ⟨hroom, t, htranslating, hwords, hend, translation_covers hroom htranslating⟩

/-- At `0x1006` there is a branch back to `0x1000`, elsewhere `nop`. A unit has four
instructions. -/
def loopsBack : Environment where
  image a := if a = 0x1006 then 0x66f8 else 0x4e71
  control := 0x041fff80
  disableFPU := false

/-- The words of the branch are outside the bounds `0x1000` and `0x1006`. -/
theorem covers_loop : ¬ ∀ (env : Environment) (localState : ℕ → CodePtr) (entry : CodePtr)
    (t : Translation), HasRoom entry →
      Translating env localState entry (fun _ others ↦ others.consumed ≤ others.advance) t →
      t.goesOn env = false → Covers t := by
  intro hall
  obtain ⟨t, htranslating, hwords, hend, hhigh⟩ : ∃ t,
      Translating loopsBack (fun _ ↦ 0) 0x1000 (fun _ others ↦ others.consumed ≤ others.advance) t ∧
      0x1006 ∈ t.words ∧ t.goesOn loopsBack = false ∧ t.unit.mtM68kHigh = 0x1006 :=
    ⟨_, .tail nop (.tail nop (.tail nop (.tail nop .refl le_rfl rfl) le_rfl rfl) le_rfl rfl)
      le_rfl rfl, by decide +kernel, by decide +kernel, by decide +kernel⟩
  have hcovers := hall loopsBack (fun _ ↦ 0) 0x1000 t (by decide) htranslating hend 0x1006 hwords
  have hle := hcovers.2.1
  rw [hhigh] at hle
  exact absurd hle (by decide)

end Emu68.M68k

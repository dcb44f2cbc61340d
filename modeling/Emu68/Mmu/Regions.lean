import Emu68.Mmu.Puts

/-!
Addresses up to mirrors, and what it means that a stretch of them is mapped: inside it every address
is seen as requested, and an address outside is kept as long as the blocks that it shares with the
stretch are clean. Stretches that follow each other make one.
-/

set_option autoImplicit false
set_option relaxedAutoImplicit false

namespace Emu68.Mmu

variable {s s₁ s' : State} {a phys virt : Address} {e attr : Entry} {n n₁ n₂ m : ℕ}
  {small : ℕ → Prop}

/-! ### Mirror images -/

/-- The address of which an address is a mirror image, or the address itself. -/
def image (a : Address) : ℕ :=
  if 2 ^ 32 ≤ a.toNat ∧ a.toNat < 2 ^ 33 then a.toNat - 2 ^ 32
  else if 2 ^ 64 - 2 ^ 32 ≤ a.toNat then a.toNat - (2 ^ 64 - 2 ^ 32)
  else a.toNat

/-- A stretch of addresses of one half that meets none of the two mirrors. -/
def Original (lo n : ℕ) : Prop :=
  lo + n ≤ 2 ^ 32 ∨ 2 ^ 33 ≤ lo ∧ lo + n ≤ 2 ^ 39 ∨
    2 ^ 64 - 2 ^ 39 ≤ lo ∧ lo + n ≤ 2 ^ 64 - 2 ^ 32

/-- The slot of an address that is no mirror image. -/
def slotAt (m : ℕ) : Slot := (decide (2 ^ 48 ≤ m), m / 2 ^ 30 % 512)

theorem slotOf_eq : slotOf a = slotAt a.toNat := by
  rw [slotOf, slotAt, idxL1_eq]
  exact Prod.ext (decide_eq_decide.mpr isKernel_iff) rfl

theorem canon_slotOf (h : Valid a) : canon (slotOf a) = slotAt (image a) := by
  have hlt := a.isLt
  rw [slotOf_eq]
  unfold Valid at h
  unfold slotAt image
  by_cases hkernel : 2 ^ 48 ≤ a.toNat
  · rw [decide_eq_true hkernel, if_neg (by omega)]
    by_cases htop : 2 ^ 64 - 2 ^ 32 ≤ a.toNat
    · have hidx : 508 ≤ a.toNat / 2 ^ 30 % 512 := by omega
      have hlow : decide (2 ^ 48 ≤ a.toNat - (2 ^ 64 - 2 ^ 32)) = false :=
        decide_eq_false (by omega)
      have hsum : a.toNat / 2 ^ 30 = 2 ^ 34 - 4 + (a.toNat - (2 ^ 64 - 2 ^ 32)) / 2 ^ 30 := by omega
      simp only [canon, if_pos hidx, if_pos htop, hlow]
      refine Prod.ext rfl ?_
      show a.toNat / 2 ^ 30 % 512 - 508 = (a.toNat - (2 ^ 64 - 2 ^ 32)) / 2 ^ 30 % 512
      omega
    · have hidx : ¬508 ≤ a.toNat / 2 ^ 30 % 512 := by omega
      simp only [canon, if_neg hidx, if_neg htop, decide_eq_true hkernel]
  · rw [decide_eq_false hkernel]
    by_cases hwindow : 2 ^ 32 ≤ a.toNat ∧ a.toNat < 2 ^ 33
    · have hidx : 4 ≤ a.toNat / 2 ^ 30 % 512 ∧ a.toNat / 2 ^ 30 % 512 < 8 := by omega
      have hlow : decide (2 ^ 48 ≤ a.toNat - 2 ^ 32) = false := decide_eq_false (by omega)
      simp only [canon, if_pos hidx, if_pos hwindow, hlow]
      refine Prod.ext rfl ?_
      show a.toNat / 2 ^ 30 % 512 - 4 = (a.toNat - 2 ^ 32) / 2 ^ 30 % 512
      omega
    · have hidx : ¬(4 ≤ a.toNat / 2 ^ 30 % 512 ∧ a.toNat / 2 ^ 30 % 512 < 8) := by omega
      simp only [canon, if_neg hidx, if_neg hwindow]
      rw [if_neg (by omega), decide_eq_false hkernel]

theorem image_mod (a : Address) : image a % 2 ^ 30 = a.toNat % 2 ^ 30 := by
  have hlt := a.isLt
  unfold image
  split_ifs <;> omega

/-- The lower half up to 512 GiB, or the upper half from there on. -/
theorem image_valid (h : Valid a) : image a < 2 ^ 39 ∨ 2 ^ 64 - 2 ^ 39 ≤ image a ∧ image a < 2 ^ 64 := by
  have hlt := a.isLt
  unfold Valid at h
  unfold image
  split_ifs <;> omega

theorem Original.image_eq (h : Original virt.toNat n) (hn : 0 < n) :
    Valid virt ∧ image virt = virt.toNat := by
  unfold Original at h
  unfold Valid image
  refine ⟨by omega, ?_⟩
  split_ifs <;> omega

/-- The slot of the start of a stretch is no mirror. -/
theorem Original.canon_eq (h : Original virt.toNat n) (hn : 0 < n) :
    canon (slotOf virt) = slotOf virt := by
  obtain ⟨hvalid, himage⟩ := h.image_eq hn
  rw [canon_slotOf hvalid, himage, slotOf_eq]

/-- Two addresses share a slot, up to mirrors, if they lie in the same GiB. -/
theorem same_slot_iff (ha : Valid a) (h : Original virt.toNat n) (hn : 0 < n) :
    canon (slotOf a) = slotOf virt ↔ image a / 2 ^ 30 = virt.toNat / 2 ^ 30 := by
  obtain ⟨hvalid, himage⟩ := h.image_eq hn
  have hcases := image_valid ha
  have hlt := virt.isLt
  unfold Valid at hvalid
  rw [canon_slotOf ha, slotOf_eq]
  unfold slotAt
  rw [Prod.ext_iff]
  simp only [decide_eq_decide]
  omega

theorem same_region_iff (ha : Valid a) (h : Original virt.toNat n) (hn : 0 < n) :
    canon (slotOf a) = slotOf virt ∧ idxL2 a = idxL2 virt ↔
      image a / 2 ^ 21 = virt.toNat / 2 ^ 21 := by
  have hmod := image_mod a
  rw [same_slot_iff ha h hn, idxL2_eq, idxL2_eq]
  omega

theorem same_page_iff (ha : Valid a) (h : Original virt.toNat n) (hn : 0 < n) :
    (canon (slotOf a) = slotOf virt ∧ idxL2 a = idxL2 virt) ∧ idxL3 a = idxL3 virt ↔
      image a / 2 ^ 12 = virt.toNat / 2 ^ 12 := by
  have hmod := image_mod a
  rw [same_region_iff ha h hn, idxL3_eq, idxL3_eq]
  omega

/-! ### Mapped stretches -/

/-- The address is seen at its distance from the start of a stretch. -/
def SeesAt (s : State) (a phys virt : Address) (attr : Entry) : Prop :=
  (view s a).1.toNat + virt.toNat = phys.toNat + image a ∧ (view s a).2 = some attr

/-- The blocks that an address shares with a stretch, and that are split, are clean. -/
structure Intact (s : State) (a : Address) (lo n : ℕ) (small : ℕ → Prop) : Prop where
  block1 : ∀ e, Block1 s a e → (∃ m, lo ≤ m ∧ m < lo + n ∧ m / 2 ^ 30 = image a / 2 ^ 30) → Clean e
  block2 : ∀ e, Block2 s a e →
    (∃ m, (lo ≤ m ∧ m < lo + n) ∧ small m ∧ m / 2 ^ 21 = image a / 2 ^ 21) → Clean e

/-- From one state to the next a stretch of `n` bytes is mapped; `small` says which addresses are
mapped by 4 KiB pages. -/
structure Mapped (s s' : State) (phys virt : Address) (attr : Entry) (n : ℕ) (small : ℕ → Prop) :
    Prop where
  inside : ∀ a, Valid a → virt.toNat ≤ image a → image a < virt.toNat + n →
    SeesAt s' a phys virt attr
  noBlock1 : ∀ a, Valid a → virt.toNat ≤ image a → image a < virt.toNat + n → ∀ e, ¬Block1 s' a e
  /-- A block that is not clean lies inside as a whole. -/
  wholeBlock2 : ∀ a, Valid a → virt.toNat ≤ image a → image a < virt.toNat + n →
    ∀ e, Block2 s' a e → Clean e ∨ image a / 2 ^ 21 * 2 ^ 21 + 2 ^ 21 ≤ virt.toNat + n
  outside : ∀ a, Valid a → ¬(virt.toNat ≤ image a ∧ image a < virt.toNat + n) →
    Intact s a virt.toNat n small → Kept s s' a

theorem Mapped.refl (s : State) (phys virt : Address) (attr : Entry) (small : ℕ → Prop) :
    Mapped s s phys virt attr 0 small where
  inside _ _ h₁ h₂ := absurd h₂ (Nat.not_lt_of_le h₁)
  noBlock1 _ _ h₁ h₂ := absurd h₂ (Nat.not_lt_of_le h₁)
  wholeBlock2 _ _ h₁ h₂ := absurd h₂ (Nat.not_lt_of_le h₁)
  outside a _ _ _ := .refl s a

theorem Intact.mono {lo lo' n' : ℕ} (h : Intact s a lo n small) (hlo : lo ≤ lo')
    (hhi : lo' + n' ≤ lo + n) : Intact s a lo' n' small := by
  constructor
  · rintro e he ⟨m, h₁, h₂, hm⟩
    exact h.block1 e he ⟨m, by omega, by omega, hm⟩
  · rintro e he ⟨m, ⟨h₁, h₂⟩, hsmall, hm⟩
    exact h.block2 e he ⟨m, ⟨by omega, by omega⟩, hsmall, hm⟩

theorem Kept.intact {lo : ℕ} (h : Kept s s' a) (hs : Intact s a lo n small) :
    Intact s' a lo n small := by
  refine ⟨fun e he ↦ hs.block1 e (h.block1 e he), fun e he hm ↦ ?_⟩
  rcases h.block2 e he with hclean | he
  · exact hclean
  · exact hs.block2 e he hm

/-- A stretch and the one behind it. -/
theorem Mapped.append (h₁ : Mapped s s₁ phys virt attr n₁ small) {phys' virt' : Address}
    (h₂ : Mapped s₁ s' phys' virt' attr n₂ small) (hvirt : virt'.toNat = virt.toNat + n₁)
    (hphys : phys'.toNat = phys.toNat + n₁) :
    Mapped s s' phys virt attr (n₁ + n₂) small := by
  -- an address of the first stretch shares no block with the second one
  have hfirst : ∀ a, Valid a → virt.toNat ≤ image a → image a < virt.toNat + n₁ →
      Kept s₁ s' a := by
    intro a ha hlo hhi
    refine h₂.outside a ha (by omega) ⟨fun e he ↦ absurd he (h₁.noBlock1 a ha hlo hhi e), ?_⟩
    rintro e he ⟨m, ⟨hm₁, hm₂⟩, -, hm⟩
    rcases h₁.wholeBlock2 a ha hlo hhi e he with hclean | hwhole
    · exact hclean
    · omega
  refine ⟨fun a ha hlo hhi ↦ ?_, fun a ha hlo hhi e he ↦ ?_, fun a ha hlo hhi e he ↦ ?_,
    fun a ha hout hintact ↦ ?_⟩
  · by_cases hpart : image a < virt.toNat + n₁
    · rw [SeesAt, (hfirst a ha hlo hpart).view_eq]
      exact h₁.inside a ha hlo hpart
    · obtain ⟨hphys', hattr⟩ := h₂.inside a ha (by omega) (by omega)
      exact ⟨by omega, hattr⟩
  · by_cases hpart : image a < virt.toNat + n₁
    · exact h₁.noBlock1 a ha hlo hpart e ((hfirst a ha hlo hpart).block1 e he)
    · exact h₂.noBlock1 a ha (by omega) (by omega) e he
  · by_cases hpart : image a < virt.toNat + n₁
    · rcases (hfirst a ha hlo hpart).block2 e he with hclean | he
      · exact .inl hclean
      · rcases h₁.wholeBlock2 a ha hlo hpart e he with hclean | hwhole
        · exact .inl hclean
        · exact .inr (by omega)
    · rcases h₂.wholeBlock2 a ha (by omega) (by omega) e he with hclean | hwhole
      · exact .inl hclean
      · exact .inr (by omega)
  · have hkept := h₁.outside a ha (by omega) (hintact.mono le_rfl (by omega))
    exact hkept.trans (h₂.outside a ha (by omega)
      (hkept.intact (hintact.mono (by omega) (by omega))))

end Emu68.Mmu

import Emu68.Mmu.Mapping

/-!
Runs of `mmu_map` from the boot tables. Every call whose condition holds maps its range exactly and
keeps the rest; along the way the tables stay where the code reaches them.
-/

set_option autoImplicit false
set_option relaxedAutoImplicit false

namespace Emu68.Mmu

open Lib (Reachable toNat_or_eq_add toNat_and_field)

variable {s s' : State} {own : Address → Owner} {place : Placement} {rest : Address → Page}
  {call : MapCall} {p : Address}

/-! ### The boot tables -/

/-- The owners of the boot tables. -/
def bootOwner (place : Placement) (p : Address) : Owner :=
  if p = place.userL1 then .root false
  else if p = place.kernelL1 then .root true
  else if p = place.kernelL2 then .dir (true, 0)
  else .pool

theorem Placement.ne (place : Placement) :
    place.userL1 ≠ place.kernelL1 ∧ place.userL1 ≠ place.kernelL2 ∧
      place.kernelL1 ≠ place.kernelL2 := by
  have h := place.distinct
  simp only [List.nodup_cons, List.mem_cons, not_or] at h
  exact ⟨h.1.1, h.1.2.1, h.2.1.1⟩

/-- The entries of the top level of the upper half. -/
def bootSlot (place : Placement) (i : ℕ) : Entry :=
  if i = 0 then place.kernelL2 ||| 3
  else if 64 ≤ i ∧ i < 64 + 320 then bootAttributes + BitVec.ofNat 64 (i - 64) <<< 30
  else 0

theorem toNat_bootBlock {k : ℕ} (hk : k < 320) :
    (bootAttributes + BitVec.ofNat 64 k <<< 30).toNat = 0x705 + k * 2 ^ 30 := by
  have hattr : bootAttributes.toNat = 0x705 := rfl
  rw [BitVec.toNat_add, BitVec.toNat_shiftLeft, BitVec.toNat_ofNat, Nat.shiftLeft_eq, hattr]
  omega

theorem slotEntry_user (i : ℕ) : (bootTables place rest).slotEntry (false, i) = 0 := by
  show (if place.userL1 = place.userL1 then _ else _ : Page) i = 0
  rw [if_pos rfl]

theorem slotEntry_kernel (i : ℕ) :
    (bootTables place rest).slotEntry (true, i) = bootSlot place i := by
  show (if place.kernelL1 = place.userL1 then _ else if place.kernelL1 = place.kernelL1 then _
    else _ : Page) i = _
  rw [if_neg place.ne.1.symm, if_pos rfl]
  rfl

/-- The 2 MiB pages of the kernel. -/
theorem block_kernelPage (base : Address) {j : ℕ} (hj : j < kernelSysPages) :
    Block ((base &&& 0xffffffffffe00000#64 ||| bootAttributes) + BitVec.ofNat 64 j <<< 21) := by
  have hj' : j < 16 := hj
  have hbase : (base &&& 0xffffffffffe00000#64).toNat = base.toNat / 2 ^ 21 % 2 ^ 43 * 2 ^ 21 :=
    toNat_and_field 21 43 (by decide) base
  have hor : (base &&& 0xffffffffffe00000#64 ||| bootAttributes).toNat =
      base.toNat / 2 ^ 21 % 2 ^ 43 * 2 ^ 21 + 0x705 := by
    rw [toNat_or_eq_add (k := 21), hbase]
    · rfl
    · rw [hbase]
      exact Nat.dvd_mul_left _ _
    · decide
  rw [block_iff, BitVec.toNat_add, BitVec.toNat_shiftLeft, BitVec.toNat_ofNat, Nat.shiftLeft_eq, hor]
  omega

theorem owned_bootTables : Owned (bootTables place rest) (bootOwner place) := by
  obtain ⟨hne₁, hne₂, hne₃⟩ := place.ne
  have haligned : Aligned place.kernelL2 := place.aligned _ (by simp)
  have hown₂ : bootOwner place place.kernelL2 = .dir (true, 0) := by
    rw [bootOwner, if_neg hne₂.symm, if_neg hne₃.symm, if_pos rfl]
  have hdir : ∀ p x, bootOwner place p = .dir x → p = place.kernelL2 ∧ x = (true, 0) := by
    intro p x hp
    unfold bootOwner at hp
    split_ifs at hp with h₁ h₂ h₃
    exact ⟨h₃, (Owner.dir.inj hp).symm⟩
  have hdistinct := place.distinct
  simp only [List.nodup_cons, List.mem_cons, not_or] at hdistinct
  refine ⟨fun kernel ↦ ?_, fun x hx ↦ ?_, fun x hx ↦ ?_, fun p x hp j hj ↦ ?_, fun p x hp ↦ ?_,
    fun p hp ↦ ?_, hdistinct.2.2.2⟩
  · cases kernel
    · exact if_pos rfl
    · show bootOwner place place.kernelL1 = _
      rw [bootOwner, if_neg hne₁.symm, if_pos rfl]
  · obtain ⟨kernel, i⟩ := x
    have hlt : i < 512 := hx
    cases kernel
    · rw [slotEntry_user]
      by_cases hwindow : 4 ≤ i ∧ i < 8
      · rw [canon, if_pos hwindow, slotEntry_user]
      · rw [canon, if_neg hwindow, slotEntry_user]
    · by_cases hwindow : 508 ≤ i
      · rw [canon, if_pos hwindow, slotEntry_user, slotEntry_kernel, bootSlot, if_neg (by omega),
          if_neg (by omega)]
      · rw [canon, if_neg hwindow]
  · obtain ⟨kernel, i⟩ := x
    cases kernel
    · rw [slotEntry_user]
      exact .inl rfl
    · rw [slotEntry_kernel, bootSlot]
      split_ifs with hzero hwindow
      · subst hzero
        exact .inr (.inr ⟨place.kernelL2, BitVec.or_comm .., haligned, hown₂⟩)
      · refine .inr (.inl (block_iff.mpr ?_))
        rw [toNat_bootBlock (by omega)]
        omega
      · exact .inl rfl
  · obtain ⟨rfl, rfl⟩ := hdir p x hp
    have hpage : (bootTables place rest).pages place.kernelL2 j = if j < kernelSysPages then
        (place.kernelBase &&& 0xffffffffffe00000#64 ||| bootAttributes) + BitVec.ofNat 64 j <<< 21
        else 0 := by
      simp only [bootTables, if_neg hne₂.symm, if_neg hne₃.symm, if_true]
    rw [hpage]
    split
    · next hj => exact .inr (.inl (block_kernelPage _ hj))
    · exact .inl rfl
  · obtain ⟨rfl, rfl⟩ := hdir p x hp
    refine ⟨by decide, ?_, haligned⟩
    rw [slotEntry_kernel]
    exact BitVec.or_comm ..
  · have hmem : p ∈ place.pool := hp
    refine ⟨?_, place.aligned p (by simp [hmem])⟩
    rw [bootOwner, if_neg, if_neg, if_neg]
    · rintro rfl
      exact hdistinct.2.2.1 hmem
    · rintro rfl
      exact hdistinct.2.1.2 hmem
    · rintro rfl
      exact hdistinct.1.2.2 hmem

/-! ### Runs -/

/-- A call that keeps the condition does what it is for. -/
theorem Owned.maps (h : Owned s own) (hcall : Mappable place s call) (hrun : step s call = some s') :
    ∃ own', Owned s' own' ∧ Maps s call s' := by
  obtain ⟨hproper, hupper, hblocks⟩ := hcall
  obtain ⟨own', hown', hmapped⟩ := h.mmuMap hproper hupper hrun
  have hlimit := hproper.ready.limit
  have hrange : Original call.virt.toNat call.length.toNat := hproper.ready.range
  have hself : ∀ a : Address, call.virt ≤ a → a.toNat < call.virt.toNat + call.length.toNat →
      Valid a ∧ image a = a.toNat ∧ call.virt.toNat ≤ a.toNat := by
    intro a hlo hhi
    have hle : call.virt.toNat ≤ a.toNat := hlo
    unfold Original at hrange
    unfold Valid image
    refine ⟨by omega, ?_, hle⟩
    split_ifs <;> omega
  refine ⟨own', hown', fun a hlo hhi ↦ ?_, fun a hlo hhi ↦ ?_, fun a ha hout ↦ ?_⟩
  · obtain ⟨ha, himage, hle⟩ := hself a hlo hhi
    have hsees := (hmapped.inside a ha (by omega) (by omega)).1
    have hsub : (a - call.virt).toNat = a.toNat - call.virt.toNat := BitVec.toNat_sub_of_le hlo
    have hlimit' : call.phys.toNat + call.length.toNat ≤ 2 ^ 48 := hlimit
    show (view s' a).1 = _
    rw [← BitVec.toNat_inj, BitVec.toNat_add, hsub]
    omega
  · obtain ⟨ha, himage, hle⟩ := hself a hlo hhi
    exact (hmapped.inside a ha (by omega) (by omega)).2
  · have hkept := (hmapped.outside a ha hout (hblocks a ha hout)).view_eq
    exact ⟨congrArg Prod.fst hkept, congrArg Prod.snd hkept⟩

/-- In every run of calls that keep the condition, a call with enough free pages returns, and every
call that returns does what it is for. -/
theorem maps_run (h : Reachable step (Mappable place) (bootTables place rest) s)
    (hcall : Mappable place s call) :
    (2 * (call.length.toNat / 4096) ≤ s.freePages.length → ∃ s', step s call = some s') ∧
      ∀ s', step s call = some s' → Maps s call s' := by
  have hinv : ∃ own, Owned s own := by
    refine h.invariant (fun s ↦ ∃ own, Owned s own) ⟨_, owned_bootTables⟩ ?_
    rintro s call s' ⟨own, hown⟩ hcall hrun
    obtain ⟨own', hown', -⟩ := hown.maps hcall hrun
    exact ⟨own', hown'⟩
  obtain ⟨own, hown⟩ := hinv
  refine ⟨step_returns, fun s' hrun ↦ ?_⟩
  obtain ⟨-, -, hmaps⟩ := hown.maps hcall hrun
  exact hmaps

/-! ### Where the tables are reached -/

theorem toNat_reached {i : ℕ} (hp : p < 0x5000000000) (hi : i < 4096) :
    (physVirtOffset + p + BitVec.ofNat 64 i).toNat = 0xffffff9000000000 + p.toNat + i := by
  have hoffset : physVirtOffset.toNat = 0xffffff9000000000 := rfl
  have hlt : p.toNat < 0x5000000000 := hp
  rw [BitVec.toNat_add, BitVec.toNat_add, BitVec.toNat_ofNat, hoffset]
  omega

/-- An address at which the code reaches a table is no mirror image, and lies above all low ones. -/
theorem image_reached {i : ℕ} (hp : p < 0x5000000000) (hi : i < 4096) :
    Valid (physVirtOffset + p + BitVec.ofNat 64 i) ∧
      2 ^ 48 ≤ image (physVirtOffset + p + BitVec.ofNat 64 i) := by
  have hlt : p.toNat < 0x5000000000 := hp
  unfold Valid image
  rw [toNat_reached hp hi]
  refine ⟨by omega, ?_⟩
  split_ifs <;> omega

theorem reached_boot {i : ℕ} (hp : p ∈ place.tables) (hi : i < 4096) :
    mmuVirt2phys (bootTables place rest) (physVirtOffset + p + BitVec.ofNat 64 i) =
      p + BitVec.ofNat 64 i := by
  have hlow := place.reached p hp
  have hlt : p.toNat < 0x5000000000 := hlow
  obtain ⟨haligned, -⟩ := Aligned.toNat (place.aligned p hp)
  set a := physVirtOffset + p + BitVec.ofNat 64 i with ha
  have htoNat : a.toNat = 0xffffff9000000000 + p.toNat + i := toNat_reached hlow hi
  have hidx : idxL1 a = 64 + p.toNat / 2 ^ 30 := by
    rw [idxL1_eq, htoNat]
    omega
  have hkernel : isKernel a := by
    rw [isKernel_iff, htoNat]
    omega
  have hentry : entry1 (bootTables place rest) a =
      bootAttributes + BitVec.ofNat 64 (p.toNat / 2 ^ 30) <<< 30 := by
    have hslot : slotOf a = (true, 64 + p.toNat / 2 ^ 30) := by
      rw [slotOf, decide_eq_true hkernel, hidx]
    rw [entry1_eq, hslot, slotEntry_kernel, bootSlot, if_neg (by omega), if_pos (by omega),
      Nat.add_sub_cancel_left]
  have hvalue := toNat_bootBlock (show p.toNat / 2 ^ 30 < 320 by omega)
  have hblock : Block (entry1 (bootTables place rest) a) := by
    rw [hentry, block_iff, hvalue]
    omega
  show (view (bootTables place rest) a).1 = _
  rw [view_block hblock, hentry, ← BitVec.toNat_inj, BitVec.toNat_add, BitVec.toNat_add,
    toNat_and_field 30 18 (by decide), toNat_and_field 0 30 (by decide), hvalue, htoNat, Lib.field,
    Lib.field, BitVec.toNat_ofNat]
  omega

/-- In every such run the tables stay where the code reaches them. -/
theorem reached_run (h : Reachable step (Mappable place) (bootTables place rest) s) :
    ∀ p ∈ place.tables, ∀ i < 4096,
      mmuVirt2phys s (physVirtOffset + p + BitVec.ofNat 64 i) = p + BitVec.ofNat 64 i := by
  have hinv : (∃ own, Owned s own) ∧ ∀ p ∈ place.tables, ∀ i < 4096,
      mmuVirt2phys s (physVirtOffset + p + BitVec.ofNat 64 i) = p + BitVec.ofNat 64 i := by
    refine h.invariant (fun s ↦ (∃ own, Owned s own) ∧ ∀ p ∈ place.tables, ∀ i < 4096,
      mmuVirt2phys s (physVirtOffset + p + BitVec.ofNat 64 i) = p + BitVec.ofNat 64 i)
      ⟨⟨_, owned_bootTables⟩, fun p hp i hi ↦ reached_boot hp hi⟩ ?_
    rintro s call s' ⟨⟨own, hown⟩, hreached⟩ hcall hrun
    obtain ⟨own', hown', hmaps⟩ := hown.maps hcall hrun
    refine ⟨⟨own', hown'⟩, fun p hp i hi ↦ ?_⟩
    have hvalid := (image_reached (place.reached p hp) hi).1
    rw [(hmaps.frame _ hvalid (hcall.proper.tables p hp i hi)).1]
    exact hreached p hp i hi
  exact hinv.2

/-! ### The page of the reset vectors -/

/-- The blocks of the boot tables are clean, or are those of the kernel. -/
theorem intact_boot {a : Address} {lo n : ℕ} {small : ℕ → Prop} (ha : Valid a)
    (hlow : lo + n ≤ 2 ^ 39) : Intact (bootTables place rest) a lo n small := by
  have hcases : entry1 (bootTables place rest) a = 0 ∨
      isKernel a ∧ entry1 (bootTables place rest) a = bootSlot place (idxL1 a) := by
    rw [entry1_eq]
    by_cases hkernel : isKernel a
    · refine .inr ⟨hkernel, ?_⟩
      rw [slotOf, decide_eq_true hkernel, slotEntry_kernel]
    · refine .inl ?_
      rw [slotOf, decide_eq_false hkernel, slotEntry_user]
  constructor
  · rintro e ⟨rfl, hblock⟩ -
    rcases hcases with hzero | ⟨-, hslot⟩
    · rw [hzero] at hblock
      cases hblock
    · have haligned : Aligned place.kernelL2 := place.aligned _ (by simp)
      rw [hslot] at hblock ⊢
      unfold bootSlot at hblock ⊢
      split_ifs at hblock ⊢
      · rw [BitVec.or_comm] at hblock
        exact absurd hblock (not_block haligned.table)
      · rw [Clean, toNat_bootBlock (by omega)]
        omega
      · cases hblock
  · rintro e ⟨htable, -, -⟩ ⟨m, ⟨-, hm⟩, -, hregion⟩
    rcases hcases with hzero | ⟨hkernel, hslot⟩
    · rw [hzero] at htable
      cases htable
    · -- only the directory of the kernel is a table, far above the stretch
      rw [hslot, bootSlot] at htable
      rw [isKernel_iff] at hkernel
      have hzero : idxL1 a = 0 := by
        by_contra hne
        rw [if_neg hne] at htable
        split_ifs at htable
        · rw [table_iff, toNat_bootBlock (by omega)] at htable
          omega
        · cases htable
      rw [idxL1_eq] at hzero
      have himage : image a = a.toNat := by
        unfold image
        unfold Valid at ha
        split_ifs <;> omega
      unfold Valid at ha
      omega

def lowTables : List Address := [0x80000, 0x81000, 0x82000, 0x3fe01000, 0x3fe00000]

theorem lowTables_nodup : lowTables.Nodup := by decide +kernel

theorem lowTables_low : ∀ p ∈ lowTables, p &&& 0x7ffffff000 = p ∧ p < 0x5000000000 := by
  intro p hp
  simp only [lowTables, List.mem_cons, List.not_mem_nil, or_false] at hp
  rcases hp with rfl | rfl | rfl | rfl | rfl <;> decide

def lowPlacement : Placement where
  userL1 := 0x80000
  kernelL1 := 0x81000
  kernelL2 := 0x82000
  kernelBase := 0
  pool := [0x3fe01000, 0x3fe00000]
  distinct := lowTables_nodup
  aligned p hp := (lowTables_low p hp).1
  reached p hp := (lowTables_low p hp).2

def resetPage (attrHigh : BitVec 32) : MapCall := ⟨0xf80000, 0, 4096, 0x7c4, attrHigh⟩

theorem proper_resetPage {attrHigh : BitVec 32} (h : attrHigh.toNat < 2 ^ 12) :
    Proper lowPlacement (resetPage attrHigh) := by
  have hready : Ready ⟨0xf80000, 0, 4096⟩ :=
    ⟨by decide, by decide, by decide, by decide, .inl (by decide)⟩
  have hattr : Attributes 0x7c4 attrHigh := ⟨by decide, by decide, h⟩
  refine ⟨hready, hattr, fun p hp i hi hcovers ↦ ?_⟩
  have himage := (image_reached (lowPlacement.reached p hp) hi).2
  have hlt : image (physVirtOffset + p + BitVec.ofNat 64 i) < 0 + 4096 := hcovers.2
  omega

theorem maps_run_resetPage :
    ∃ s', step (bootTables lowPlacement fun _ _ ↦ 0) (resetPage 0) = some s' ∧
      Maps (bootTables lowPlacement fun _ _ ↦ 0) (resetPage 0) s' := by
  have hcall : Mappable lowPlacement (bootTables lowPlacement fun _ _ ↦ 0) (resetPage 0) :=
    ⟨proper_resetPage (by decide), .inl rfl, fun a ha _ ↦ intact_boot ha (by decide)⟩
  obtain ⟨hreturns, hmaps⟩ := maps_run .refl hcall
  obtain ⟨s', hrun⟩ := hreturns (by decide)
  exact ⟨s', hrun, hmaps s' hrun⟩

/-- The upper attributes of a 4 KiB page are put four bits too low. -/
theorem not_maps_run : ¬∀ place rest s call s',
    Reachable step (fun _ call ↦ Proper place call) (bootTables place rest) s →
      Proper place call → step s call = some s' → Maps s call s' := by
  intro hall
  obtain ⟨s', hrun⟩ : ∃ s', step (bootTables lowPlacement fun _ _ ↦ 0) (resetPage 4) = some s' :=
    step_returns (by decide)
  have hmaps := hall lowPlacement (fun _ _ ↦ 0) _ (resetPage 4) s' .refl
    (proper_resetPage (by decide)) hrun
  have hleaf := hmaps.leaf 0 (by decide) (by decide)
  have hwrong : (step (bootTables lowPlacement fun _ _ ↦ 0) (resetPage 4)).map
      (fun s' ↦ (leafEntry s' 0).map attributes) ≠ some (some (requested 0x7c4 4)) := by
    decide +kernel
  rw [hrun] at hwrong
  exact hwrong (congrArg some hleaf)

end Emu68.Mmu

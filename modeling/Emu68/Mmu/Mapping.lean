import Emu68.Lib.Transition
import Emu68.Mmu.Leaves

/-!
`mmu_map` and its runs from the boot tables. Each of its three loops maps the stretch that its cursor
passes, and the stretches make the range of the call. What a call may lose are the upper attributes
of its 4 KiB pages and those of the blocks that it splits.
-/

set_option autoImplicit false
set_option relaxedAutoImplicit false

namespace Emu68.Mmu

open Lib (Reachable)

variable {s s' : State} {own : Address → Owner} {attr : Entry} {small : ℕ → Prop}
  {c c' : Cursor} {size : Address}

/-! ### A loop -/

/-- What is left of a call is a range that can be mapped. -/
structure Ready (c : Cursor) : Prop where
  virt_mod : c.virt.toNat % 4096 = 0
  phys_mod : c.phys.toNat % 4096 = 0
  length_mod : c.length.toNat % 4096 = 0
  limit : c.phys.toNat + c.length.toNat ≤ 2 ^ 48
  range : Original c.virt.toNat c.length.toNat

/-- The cursor has passed `k` bytes. -/
structure Passed (c c' : Cursor) (k : ℕ) : Prop where
  virt_eq : c'.virt.toNat = c.virt.toNat + k
  phys_eq : c'.phys.toNat = c.phys.toNat + k
  length_eq : c'.length.toNat + k = c.length.toNat

theorem Original.lt (h : Original c.virt.toNat c.length.toNat) :
    c.virt.toNat + c.length.toNat < 2 ^ 64 := by
  unfold Original at h
  omega

theorem Ready.passed (h : Ready c) (hsize : size.toNat ≤ c.length.toNat) :
    Passed c (c.advance size) size.toNat := by
  have hlt := h.range.lt
  have hlimit := h.limit
  refine ⟨?_, ?_, ?_⟩
  · show (c.virt + size).toNat = _
    rw [BitVec.toNat_add]
    omega
  · show (c.phys + size).toNat = _
    rw [BitVec.toNat_add]
    omega
  · show (c.length - size).toNat + _ = _
    rw [BitVec.toNat_sub_of_le hsize]
    omega

theorem Ready.advance {k : ℕ} (h : Ready c) (hpassed : Passed c c' k) (hk : k % 4096 = 0) :
    Ready c' := by
  obtain ⟨hvirt, hphys, hlength⟩ := hpassed
  obtain ⟨hvirt_mod, hphys_mod, hlength_mod, hlimit, hrange⟩ := h
  unfold Original at hrange
  refine ⟨by omega, by omega, by omega, by omega, ?_⟩
  unfold Original
  omega

/-- What holds of the cursor in a loop, and what a round of it does. -/
structure Loop (test : Cursor → Bool) (size : Address)
    (put : State → Address → Address → Option State) (attr : Entry) (small : ℕ → Prop)
    (inv : Cursor → Prop) : Prop where
  ready : ∀ c, inv c → Ready c
  fits : ∀ c, test c = true → size.toNat ≤ c.length.toNat
  next : ∀ c c', inv c → test c = true → Passed c c' size.toNat → inv c'
  put : ∀ s own c s', Owned s own → inv c → test c = true → put s c.phys c.virt = some s' →
    ∃ own', Owned s' own' ∧ Mapped s s' c.phys c.virt attr size.toNat small

/-- A loop maps what its cursor passes, and it ends because its test fails. -/
theorem Loop.run {test : Cursor → Bool} {put : State → Address → Address → Option State}
    {inv : Cursor → Prop} (h : Loop test size put attr small inv) :
    ∀ (n : ℕ) (s : State) (own : Address → Owner) (c : Cursor), Owned s own → inv c →
      c.length.toNat < (n + 1) * size.toNat → ∀ s' c', mapLoop test size put n s c = some (s', c') →
        ∃ own' k, Owned s' own' ∧ inv c' ∧ Passed c c' k ∧
          Mapped s s' c.phys c.virt attr k small ∧ test c' = false := by
  intro n
  induction n with
  | zero =>
    intro s own c hown hinv hlength s' c' hrun
    cases hrun
    refine ⟨own, 0, hown, hinv, ⟨rfl, rfl, rfl⟩, .refl _ _ _ _ _, ?_⟩
    by_contra htest
    have hfits := h.fits c (by simpa using htest)
    omega
  | succ n ih =>
    intro s own c hown hinv hlength s' c' hrun
    unfold mapLoop at hrun
    split at hrun
    · next htest =>
      obtain ⟨s₁, hput, hrest⟩ := Option.bind_eq_some_iff.mp hrun
      obtain ⟨own₁, hown₁, hmapped₁⟩ := h.put s own c s₁ hown hinv htest hput
      have hpassed := (h.ready c hinv).passed (h.fits c htest)
      have hshort : (c.advance size).length.toNat < (n + 1) * size.toNat := by
        have hlength₁ := hpassed.length_eq
        rw [Nat.succ_mul] at hlength
        omega
      obtain ⟨own', k, hown', hinv', hpassed', hmapped', htest'⟩ :=
        ih s₁ own₁ _ hown₁ (h.next c _ hinv htest hpassed) hshort s' c' hrest
      refine ⟨own', size.toNat + k, hown', hinv', ⟨?_, ?_, ?_⟩,
        hmapped₁.append hmapped' hpassed.virt_eq hpassed.phys_eq, htest'⟩
      · rw [hpassed'.virt_eq, hpassed.virt_eq]
        omega
      · rw [hpassed'.phys_eq, hpassed.phys_eq]
        omega
      · rw [← hpassed.length_eq, ← hpassed'.length_eq]
        omega
    · next htest =>
      cases hrun
      exact ⟨own, 0, hown, hinv, ⟨rfl, rfl, rfl⟩, .refl _ _ _ _ _, by simpa using htest⟩

/-! ### A call -/

structure MapCall where
  phys : Address
  virt : Address
  length : Address
  attrLow : BitVec 32
  attrHigh : BitVec 32

def step (s : State) (call : MapCall) : Option State :=
  mmuMap s call.phys call.virt call.length call.attrLow call.attrHigh

variable {call : MapCall}

/-- Where the first loop stops: at a multiple of 2 MiB, or at the end. -/
def MapCall.bigStart (call : MapCall) : ℕ :=
  min (call.virt.toNat + call.length.toNat) ((call.virt.toNat + 0x1fffff) / 0x200000 * 0x200000)

/-- Where the second loop stops, which runs if the physical address is a multiple of 2 MiB too. -/
def MapCall.bigEnd (call : MapCall) : ℕ :=
  if (call.phys.toNat + (call.bigStart - call.virt.toNat)) % 0x200000 = 0 then
    call.bigStart + (call.virt.toNat + call.length.toNat - call.bigStart) / 0x200000 * 0x200000
  else call.bigStart

/-- The part of the range that is mapped by 4 KiB pages. -/
def MapCall.Small (call : MapCall) (m : ℕ) : Prop :=
  (call.virt.toNat ≤ m ∧ m < call.virt.toNat + call.length.toNat) ∧
    ¬(call.bigStart ≤ m ∧ m < call.bigEnd)

/-- The address is in the range or a mirror image of one that is. -/
def MapCall.Covers (call : MapCall) (a : Address) : Prop :=
  call.virt.toNat ≤ image a ∧ image a < call.virt.toNat + call.length.toNat

/-- The arguments that `mmu_map` is made for: multiples of 4 KiB, attributes in their places, and a
range that meets neither the mirrors nor the tables themselves. -/
structure Proper (place : Placement) (call : MapCall) : Prop where
  ready : Ready ⟨call.phys, call.virt, call.length⟩
  attributes : Attributes call.attrLow call.attrHigh
  tables : ∀ p ∈ place.tables, ∀ i < 4096,
    ¬call.Covers (physVirtOffset + p + BitVec.ofNat 64 i)

/-- What a call may lose: upper attributes of 4 KiB pages, and the upper attributes and the address
from 512 GiB on of a block of which it maps a part. -/
structure Mappable (place : Placement) (s : State) (call : MapCall) : Prop where
  proper : Proper place call
  upper : call.attrHigh = 0 ∨ ∀ m, ¬call.Small m
  blocks : ∀ a, Valid a → ¬call.Covers a →
    Intact s a call.virt.toNat call.length.toNat call.Small

/-- The claim about a call. -/
structure Maps (s : State) (call : MapCall) (s' : State) : Prop where
  translation : ∀ a : Address, call.virt ≤ a → a.toNat < call.virt.toNat + call.length.toNat →
    mmuVirt2phys s' a = call.phys + (a - call.virt)
  leaf : ∀ a : Address, call.virt ≤ a → a.toNat < call.virt.toNat + call.length.toNat →
    (leafEntry s' a).map attributes = some (requested call.attrLow call.attrHigh)
  frame : ∀ a, Valid a → ¬call.Covers a → mmuVirt2phys s' a = mmuVirt2phys s a ∧
    (leafEntry s' a).map attributes = (leafEntry s a).map attributes

/-! ### The three loops -/

/-- A cursor of the call. -/
structure Inside (call : MapCall) (c : Cursor) : Prop where
  ready : Ready c
  end_eq : c.virt.toNat + c.length.toNat = call.virt.toNat + call.length.toNat
  offset_eq : c.phys.toNat + call.virt.toNat = call.phys.toNat + c.virt.toNat
  start_le : call.virt.toNat ≤ c.virt.toNat

theorem Inside.passed {k : ℕ} (h : Inside call c) (hpassed : Passed c c' k) (hk : k % 4096 = 0) :
    Inside call c' := by
  obtain ⟨hready, hend, hoffset, hstart⟩ := h
  have hready' := hready.advance hpassed hk
  obtain ⟨hvirt, hphys, hlength⟩ := hpassed
  exact ⟨hready', by omega, by omega, by omega⟩

theorem mask_eq_zero {x : Address} : x &&& 0x1fffff = 0 ↔ x.toNat % 0x200000 = 0 := by
  have hmask : (x &&& 0x1fffff).toNat = x.toNat % 0x200000 := by
    rw [Lib.toNat_and_field 0 21 (by decide), Lib.field]
    omega
  rw [← BitVec.toNat_inj, hmask]
  rfl

/-- A 4 KiB page of the call that is put where the call puts such pages. -/
theorem Inside.put4k (h : Inside call c) (hattr : Attributes call.attrLow call.attrHigh)
    (hupper : call.attrHigh = 0 ∨ ∀ m, ¬call.Small m) (hown : Owned s own)
    (hlength : 4096 ≤ c.length.toNat) (hsmall : call.Small c.virt.toNat)
    (hput : put4kPage s c.phys c.virt call.attrLow call.attrHigh = some s') :
    ∃ own', Owned s' own' ∧ Mapped s s' c.phys c.virt (requested call.attrLow call.attrHigh) 4096
      call.Small := by
  obtain ⟨hvirt, hphys, -, hlimit, hrange⟩ := h.ready
  have hzero : call.attrHigh = 0 := hupper.resolve_right fun hall ↦ hall _ hsmall
  have hpage : Original c.virt.toNat 4096 := by
    unfold Original at *
    omega
  exact hown.put4kPage hattr hzero hpage hvirt hphys (by omega) hsmall hput

theorem headLoop (hattr : Attributes call.attrLow call.attrHigh)
    (hupper : call.attrHigh = 0 ∨ ∀ m, ¬call.Small m) :
    Loop (fun c ↦ c.virt &&& 0x1fffff ≠ 0 ∧ 4096 ≤ c.length) 4096
      (fun s phys virt ↦ put4kPage s phys virt call.attrLow call.attrHigh)
      (requested call.attrLow call.attrHigh) call.Small
      (fun c ↦ Inside call c ∧ c.virt.toNat ≤ call.bigStart) := by
  have htest : ∀ c : Cursor, decide (c.virt &&& 0x1fffff ≠ 0 ∧ 4096 ≤ c.length) = true ↔
      c.virt.toNat % 0x200000 ≠ 0 ∧ 4096 ≤ c.length.toNat := by
    intro c
    rw [decide_eq_true_iff, ne_eq, mask_eq_zero]
    rfl
  -- the page lies before the place where the 2 MiB pages start
  have hbefore : ∀ c : Cursor, Inside call c → c.virt.toNat ≤ call.bigStart →
      c.virt.toNat % 0x200000 ≠ 0 → 4096 ≤ c.length.toNat →
      c.virt.toNat + 4096 ≤ call.bigStart := by
    intro c hinside hstart hvirt hlength
    obtain ⟨⟨hmod, -, hlength_mod, -, -⟩, hend, -, hle⟩ := hinside
    unfold MapCall.bigStart at *
    omega
  refine ⟨fun c hc ↦ hc.1.ready, fun c hc ↦ ((htest c).mp hc).2, fun c c' hc hc' hpassed ↦ ?_,
    fun s own c s' hown hc hc' hput ↦ ?_⟩
  · obtain ⟨hvirt, hlength⟩ := (htest c).mp hc'
    have hle := hbefore c hc.1 hc.2 hvirt hlength
    refine ⟨hc.1.passed hpassed (by decide), ?_⟩
    rw [hpassed.virt_eq]
    exact hle
  · obtain ⟨hvirt, hlength⟩ := (htest c).mp hc'
    have hle := hbefore c hc.1 hc.2 hvirt hlength
    have hend := hc.1.end_eq
    have hsmall : call.Small c.virt.toNat :=
      ⟨⟨hc.1.start_le, by omega⟩, fun hbig ↦ by omega⟩
    exact hc.1.put4k hattr hupper hown hlength hsmall hput

theorem bigLoop (hattr : Attributes call.attrLow call.attrHigh) :
    Loop (fun c ↦ 0x200000 ≤ c.length) 0x200000
      (fun s phys virt ↦ put2mPage s phys virt call.attrLow call.attrHigh)
      (requested call.attrLow call.attrHigh) call.Small
      (fun c ↦ Inside call c ∧ call.bigStart ≤ c.virt.toNat ∧
        (c.virt.toNat - call.bigStart) % 0x200000 = 0 ∧ c.phys.toNat % 0x200000 = 0) := by
  have htest : ∀ c : Cursor, decide (0x200000 ≤ c.length) = true ↔ 0x200000 ≤ c.length.toNat :=
    fun c ↦ decide_eq_true_iff
  refine ⟨fun c hc ↦ hc.1.ready, fun c hc ↦ (htest c).mp hc, fun c c' hc hc' hpassed ↦ ?_,
    fun s own c s' hown hc hc' hput ↦ ?_⟩
  · obtain ⟨hinside, hstart, hvirt, hphys⟩ := hc
    refine ⟨hinside.passed hpassed (by decide), ?_, ?_, ?_⟩
    · rw [hpassed.virt_eq]
      omega
    · rw [hpassed.virt_eq]
      show (c.virt.toNat + 0x200000 - call.bigStart) % 0x200000 = 0
      omega
    · rw [hpassed.phys_eq]
      show (c.phys.toNat + 0x200000) % 0x200000 = 0
      omega
  · obtain ⟨⟨⟨-, -, -, hlimit, hrange⟩, hend, -, -⟩, hstart, hdistance, hphys⟩ := hc
    have hlength := (htest c).mp hc'
    have haligned : call.bigStart % 0x200000 = 0 := by
      unfold MapCall.bigStart at *
      omega
    have hpage : Original c.virt.toNat (2 ^ 21) := by
      unfold Original at *
      omega
    exact hown.put2mPage hattr hpage (by omega) hphys (by omega) hput

theorem tailLoop (hattr : Attributes call.attrLow call.attrHigh)
    (hupper : call.attrHigh = 0 ∨ ∀ m, ¬call.Small m) :
    Loop (fun c ↦ 4096 ≤ c.length) 4096
      (fun s phys virt ↦ put4kPage s phys virt call.attrLow call.attrHigh)
      (requested call.attrLow call.attrHigh) call.Small
      (fun c ↦ Inside call c ∧ call.bigEnd ≤ c.virt.toNat) := by
  have htest : ∀ c : Cursor, decide (4096 ≤ c.length) = true ↔ 4096 ≤ c.length.toNat :=
    fun c ↦ decide_eq_true_iff
  refine ⟨fun c hc ↦ hc.1.ready, fun c hc ↦ (htest c).mp hc, fun c c' hc hc' hpassed ↦ ?_,
    fun s own c s' hown hc hc' hput ↦ ?_⟩
  · refine ⟨hc.1.passed hpassed (by decide), hc.2.trans ?_⟩
    rw [hpassed.virt_eq]
    exact Nat.le_add_right _ _
  · have hlength := (htest c).mp hc'
    have hend := hc.1.end_eq
    have hle := hc.2
    have hsmall : call.Small c.virt.toNat :=
      ⟨⟨hc.1.start_le, by omega⟩, fun hbig ↦ by omega⟩
    exact hc.1.put4k hattr hupper hown hlength hsmall hput

/-- The second loop, from where the first one stops to `bigEnd`. -/
theorem Owned.mapBlocks (h : Owned s own) (hattr : Attributes call.attrLow call.attrHigh)
    (hinside : Inside call c) (hstart : c.virt.toNat = call.bigStart)
    (hrun : Mmu.mapBlocks s
      (fun s phys virt ↦ Mmu.put2mPage s phys virt call.attrLow call.attrHigh) c = some (s', c')) :
    ∃ own' k, Owned s' own' ∧ Inside call c' ∧ Passed c c' k ∧
      Mapped s s' c.phys c.virt (requested call.attrLow call.attrHigh) k call.Small ∧
      call.bigEnd ≤ c'.virt.toNat := by
  have hphys : c.phys.toNat = call.phys.toNat + (call.bigStart - call.virt.toNat) := by
    have hoffset := hinside.offset_eq
    have hle := hinside.start_le
    omega
  unfold Mmu.mapBlocks at hrun
  split at hrun
  · next haligned =>
    rw [mask_eq_zero] at haligned
    have hrounds : c.length.toNat < (c.length.toNat / 0x200000 + 1) * 0x200000 := by omega
    obtain ⟨own', k, h', ⟨hinside', hle, hdistance, -⟩, hpassed, hmapped, hexit⟩ :=
      (bigLoop hattr).run _ s own c h ⟨hinside, hstart.ge, by omega, haligned⟩ hrounds s' c' hrun
    refine ⟨own', k, h', hinside', hpassed, hmapped, ?_⟩
    have hshort : ¬0x200000 ≤ c'.length.toNat := of_decide_eq_false hexit
    have hend := hinside'.end_eq
    rw [hphys] at haligned
    rw [MapCall.bigEnd, if_pos haligned]
    omega
  · next haligned =>
    rw [mask_eq_zero, hphys] at haligned
    cases hrun
    refine ⟨own, 0, h, hinside, ⟨rfl, rfl, rfl⟩, .refl _ _ _ _ _, ?_⟩
    rw [MapCall.bigEnd, if_neg haligned, hstart]

/-- A call maps its range. -/
theorem Owned.mmuMap {place : Placement} (h : Owned s own) (hproper : Proper place call)
    (hupper : call.attrHigh = 0 ∨ ∀ m, ¬call.Small m) (hrun : step s call = some s') :
    ∃ own', Owned s' own' ∧ Mapped s s' call.phys call.virt
      (requested call.attrLow call.attrHigh) call.length.toNat call.Small := by
  obtain ⟨hready, hattr, -⟩ := hproper
  unfold step Mmu.mmuMap at hrun
  obtain ⟨⟨s₁, c₁⟩, hrun₁, hrun⟩ := Option.bind_eq_some_iff.mp hrun
  obtain ⟨⟨s₂, c₂⟩, hrun₂, hrun⟩ := Option.bind_eq_some_iff.mp hrun
  obtain ⟨⟨s₃, c₃⟩, hrun₃, hrun⟩ := Option.bind_eq_some_iff.mp hrun
  cases hrun
  have hinside : Inside call ⟨call.phys, call.virt, call.length⟩ := ⟨hready, rfl, rfl, le_rfl⟩
  have hstart : call.virt.toNat ≤ call.bigStart := by
    unfold MapCall.bigStart
    omega
  have hrounds : call.length.toNat < (call.length.toNat / 4096 + 1) * 4096 := by omega
  obtain ⟨own₁, k₁, h₁, ⟨hinside₁, hle₁⟩, hpassed₁, hmapped₁, hexit₁⟩ :=
    (headLoop hattr hupper).run _ s own ⟨call.phys, call.virt, call.length⟩ h ⟨hinside, hstart⟩
      hrounds s₁ c₁ hrun₁
  -- the first loop stops where the second one starts
  have hreached : c₁.virt.toNat = call.bigStart := by
    have hexit : ¬(c₁.virt &&& 0x1fffff ≠ 0 ∧ 4096 ≤ c₁.length.toNat) := of_decide_eq_false hexit₁
    rw [ne_eq, mask_eq_zero] at hexit
    have hend := hinside₁.end_eq
    have hge := hinside₁.start_le
    have hmod := hinside₁.ready.length_mod
    unfold MapCall.bigStart at *
    omega
  obtain ⟨own₂, k₂, h₂, hinside₂, hpassed₂, hmapped₂, hbig⟩ :=
    h₁.mapBlocks hattr hinside₁ hreached hrun₂
  have hrounds₂ : c₂.length.toNat < (c₂.length.toNat / 4096 + 1) * 4096 := by omega
  obtain ⟨own₃, k₃, h₃, ⟨hinside₃, -⟩, hpassed₃, hmapped₃, hexit₃⟩ :=
    (tailLoop hattr hupper).run _ s₂ own₂ c₂ h₂ ⟨hinside₂, hbig⟩ hrounds₂ s' c₃ hrun₃
  have hdone : ¬4096 ≤ c₃.length.toNat := of_decide_eq_false hexit₃
  have hmod := hinside₃.ready.length_mod
  have htotal : k₁ + (k₂ + k₃) = call.length.toNat := by
    have hlength : c₁.length.toNat + k₁ = call.length.toNat := hpassed₁.length_eq
    have hlength₂ := hpassed₂.length_eq
    have hlength₃ := hpassed₃.length_eq
    omega
  rw [← htotal]
  exact ⟨own₃, h₃, hmapped₁.append
    (hmapped₂.append hmapped₃ hpassed₂.virt_eq hpassed₂.phys_eq) hpassed₁.virt_eq hpassed₁.phys_eq⟩

/-! ### Calls return -/

theorem get4kPage_returns (h : 0 < s.freePages.length) :
    ∃ q rest, s.freePages = q :: rest ∧ get4kPage s = some (q, { s with freePages := rest }) := by
  obtain ⟨q, rest, hfree⟩ := List.exists_cons_of_length_pos h
  refine ⟨q, rest, hfree, ?_⟩
  unfold get4kPage
  rw [hfree]

theorem directory_returns (virt : Address) (h : 0 < s.freePages.length) :
    ∃ p s', directory s virt = some (p, s') ∧ s.freePages.length ≤ s'.freePages.length + 1 := by
  obtain ⟨q, rest, hfree, hget⟩ := get4kPage_returns h
  unfold directory
  dsimp only
  rw [hget, hfree]
  split_ifs
  · refine ⟨q, _, rfl, ?_⟩
    rw [freePages_mirrorPage]
    exact le_rfl
  · refine ⟨q, _, rfl, ?_⟩
    rw [freePages_mirrorPage]
    exact le_rfl
  · refine ⟨_, s, rfl, ?_⟩
    rw [hfree]
    exact Nat.le_succ _

theorem pageTable_returns (t virt : Address) (h : 0 < s.freePages.length) :
    ∃ p s', pageTable s t virt = some (p, s') ∧ s.freePages.length ≤ s'.freePages.length + 1 := by
  obtain ⟨q, rest, hfree, hget⟩ := get4kPage_returns h
  unfold pageTable
  dsimp only
  rw [hget, hfree]
  split_ifs
  · exact ⟨q, _, rfl, le_rfl⟩
  · exact ⟨q, _, rfl, le_rfl⟩
  · refine ⟨_, s, rfl, ?_⟩
    rw [hfree]
    exact Nat.le_succ _

variable {phys virt : Address} {lo hi : BitVec 32}

theorem put4kPage_returns (h : 2 ≤ s.freePages.length) :
    ∃ s', put4kPage s phys virt lo hi = some s' ∧
      s.freePages.length ≤ s'.freePages.length + 2 := by
  obtain ⟨t, s₁, hdir, hfree₁⟩ := directory_returns virt (show 0 < s.freePages.length by omega)
  obtain ⟨p, s₂, htable, hfree₂⟩ :=
    pageTable_returns t virt (show 0 < s₁.freePages.length by omega)
  refine ⟨s₂.setEntry p (idxL3 virt) (pageEntry phys lo hi), ?_, ?_⟩
  · unfold put4kPage
    rw [hdir]
    dsimp only [Option.bind_eq_bind, Option.bind_some]
    rw [htable]
    rfl
  · rw [freePages_setEntry]
    omega

theorem put2mPage_returns (h : 2 ≤ s.freePages.length) :
    ∃ s', put2mPage s phys virt lo hi = some s' ∧
      s.freePages.length ≤ s'.freePages.length + 2 := by
  obtain ⟨t, s₁, hdir, hfree⟩ := directory_returns virt (show 0 < s.freePages.length by omega)
  unfold put2mPage
  rw [hdir]
  refine ⟨_, rfl, ?_⟩
  rw [freePages_setEntry]
  split
  · show s.freePages.length ≤ (_ :: s₁.freePages).length + 2
    rw [List.length_cons]
    omega
  · omega

/-- A loop returns if there are two pages for each 4 KiB that are left. -/
theorem mapLoop_returns (test : Cursor → Bool) (size : Address)
    (put : State → Address → Address → Option State)
    (htest : ∀ c, test c = true → size.toNat ≤ c.length.toNat) (hsize : 4096 ≤ size.toNat)
    (hput : ∀ s phys virt, 2 ≤ s.freePages.length → ∃ s', put s phys virt = some s' ∧
      s.freePages.length ≤ s'.freePages.length + 2) :
    ∀ (n : ℕ) (s : State) (c : Cursor), 2 * (c.length.toNat / 4096) ≤ s.freePages.length →
      ∃ s' c', mapLoop test size put n s c = some (s', c') ∧
        2 * (c'.length.toNat / 4096) ≤ s'.freePages.length := by
  intro n
  induction n with
  | zero => exact fun s c h ↦ ⟨s, c, rfl, h⟩
  | succ n ih =>
    intro s c h
    unfold mapLoop
    split
    · next hpass =>
      have hfits := htest c hpass
      obtain ⟨s₁, hs₁, hfree⟩ := hput s c.phys c.virt (by omega)
      have hlength : (c.advance size).length.toNat = c.length.toNat - size.toNat :=
        BitVec.toNat_sub_of_le hfits
      obtain ⟨s', c', hrun, hfree'⟩ := ih s₁ (c.advance size) (by omega)
      refine ⟨s', c', ?_, hfree'⟩
      rw [hs₁]
      exact hrun
    · exact ⟨s, c, rfl, h⟩

/-- With two free pages for each 4 KiB a call returns. -/
theorem step_returns (h : 2 * (call.length.toNat / 4096) ≤ s.freePages.length) :
    ∃ s', step s call = some s' := by
  obtain ⟨s₁, c₁, hrun₁, hfree₁⟩ := mapLoop_returns
    (fun c ↦ c.virt &&& 0x1fffff ≠ 0 ∧ 4096 ≤ c.length) 4096
    (fun s phys virt ↦ put4kPage s phys virt call.attrLow call.attrHigh)
    (fun c hc ↦ (of_decide_eq_true hc).2) (by decide) (fun _ _ _ ↦ put4kPage_returns)
    (call.length.toNat / 4096) s ⟨call.phys, call.virt, call.length⟩ h
  obtain ⟨s₂, c₂, hrun₂, hfree₂⟩ : ∃ s₂ c₂, mapBlocks s₁
      (fun s phys virt ↦ put2mPage s phys virt call.attrLow call.attrHigh) c₁ = some (s₂, c₂) ∧
        2 * (c₂.length.toNat / 4096) ≤ s₂.freePages.length := by
    unfold mapBlocks
    split
    · exact mapLoop_returns (fun c ↦ 0x200000 ≤ c.length) 0x200000 _
        (fun c hc ↦ of_decide_eq_true hc) (by decide) (fun _ _ _ ↦ put2mPage_returns) _ s₁ c₁ hfree₁
    · exact ⟨s₁, c₁, rfl, hfree₁⟩
  obtain ⟨s₃, c₃, hrun₃, -⟩ := mapLoop_returns (fun c ↦ 4096 ≤ c.length) 4096
    (fun s phys virt ↦ put4kPage s phys virt call.attrLow call.attrHigh)
    (fun c hc ↦ of_decide_eq_true hc) (by decide) (fun _ _ _ ↦ put4kPage_returns)
    (c₂.length.toNat / 4096) s₂ c₂ hfree₂
  refine ⟨s₃, ?_⟩
  unfold step mmuMap
  dsimp only
  rw [hrun₁]
  dsimp only [Option.bind_eq_bind, Option.bind_some]
  rw [hrun₂]
  dsimp only [Option.bind_some]
  rw [hrun₃]
  rfl

end Emu68.Mmu

import Emu68.Mmu.Regions
import Mathlib.Tactic.Ring

/-!
`put_2m_page` and `put_4k_page`: each maps one stretch, of the size of its page.
-/

set_option autoImplicit false
set_option relaxedAutoImplicit false

namespace Emu68.Mmu

open Lib (field toNat_and_field toNat_or_eq_add)

variable {s s' : State} {own : Address → Owner} {a p q t phys virt : Address} {e : Entry}
  {v : Slot} {i j : ℕ} {lo hi : BitVec 32} {small : ℕ → Prop}

/-! ### The entries -/

/-- Lower attributes are the bits 2 to 11, and upper ones the bits from 52 on. -/
structure Attributes (lo hi : BitVec 32) : Prop where
  low_mod : lo.toNat % 4 = 0
  low_lt : lo.toNat < 2 ^ 12
  high_lt : hi.toNat < 2 ^ 12

def requested (lo hi : BitVec 32) : Entry := lo.setWidth 64 ||| hi.setWidth 64 <<< 52

def pageEntry (phys : Address) (lo hi : BitVec 32) : Entry :=
  phys &&& 0x0000fffffffff000#64 ||| (lo ||| 3).setWidth 64 ||| hi.setWidth 64 <<< 48

def blockEntry (phys : Address) (lo hi : BitVec 32) : Entry :=
  phys &&& 0x0000ffffffe00000#64 ||| (lo ||| mmuPage).setWidth 64 ||| hi.setWidth 64 <<< 52

theorem toNat_requested (h : Attributes lo hi) :
    (requested lo hi).toNat = hi.toNat * 2 ^ 52 + lo.toNat := by
  obtain ⟨-, hlo, hhi⟩ := h
  have hhigh : (hi.setWidth 64 <<< 52).toNat = hi.toNat * 2 ^ 52 := by
    rw [BitVec.toNat_shiftLeft, BitVec.toNat_setWidth, Nat.shiftLeft_eq]
    omega
  have hlow : (lo.setWidth 64).toNat = lo.toNat := by
    rw [BitVec.toNat_setWidth]
    omega
  rw [requested, BitVec.or_comm, toNat_or_eq_add (k := 52), hhigh, hlow]
  · rw [hhigh]
    exact Nat.dvd_mul_left _ _
  · omega

theorem toNat_pageEntry (h : Attributes lo hi) (phys : Address) :
    (pageEntry phys lo hi).toNat =
      hi.toNat * 2 ^ 48 + (phys.toNat / 2 ^ 12 % 2 ^ 36 * 2 ^ 12 + (lo.toNat + 3)) := by
  obtain ⟨hmod, hlo, hhi⟩ := h
  have hhigh : (hi.setWidth 64 <<< 48).toNat = hi.toNat * 2 ^ 48 := by
    rw [BitVec.toNat_shiftLeft, BitVec.toNat_setWidth, Nat.shiftLeft_eq]
    omega
  have hlow : ((lo ||| 3).setWidth 64).toNat = lo.toNat + 3 := by
    rw [BitVec.toNat_setWidth, toNat_or_eq_add (k := 2) (by omega) (by decide)]
    show (lo.toNat + 3) % 2 ^ 64 = _
    omega
  have hphys : (phys &&& 0x0000fffffffff000#64).toNat = phys.toNat / 2 ^ 12 % 2 ^ 36 * 2 ^ 12 :=
    toNat_and_field 12 36 (by decide) phys
  have hrest : (phys &&& 0x0000fffffffff000#64 ||| (lo ||| 3).setWidth 64).toNat =
      phys.toNat / 2 ^ 12 % 2 ^ 36 * 2 ^ 12 + (lo.toNat + 3) := by
    rw [toNat_or_eq_add (k := 12), hphys, hlow]
    · rw [hphys]
      exact Nat.dvd_mul_left _ _
    · omega
  rw [pageEntry, BitVec.or_comm, toNat_or_eq_add (k := 48), hhigh, hrest]
  · rw [hhigh]
    exact Nat.dvd_mul_left _ _
  · omega

theorem toNat_blockEntry (h : Attributes lo hi) (phys : Address) :
    (blockEntry phys lo hi).toNat =
      hi.toNat * 2 ^ 52 + (phys.toNat / 2 ^ 21 % 2 ^ 27 * 2 ^ 21 + (lo.toNat + 1)) := by
  obtain ⟨hmod, hlo, hhi⟩ := h
  have hhigh : (hi.setWidth 64 <<< 52).toNat = hi.toNat * 2 ^ 52 := by
    rw [BitVec.toNat_shiftLeft, BitVec.toNat_setWidth, Nat.shiftLeft_eq]
    omega
  have hlow : ((lo ||| mmuPage).setWidth 64).toNat = lo.toNat + 1 := by
    rw [BitVec.toNat_setWidth, toNat_or_eq_add (k := 2) (by omega) (by decide)]
    show (lo.toNat + 1) % 2 ^ 64 = _
    omega
  have hphys : (phys &&& 0x0000ffffffe00000#64).toNat = phys.toNat / 2 ^ 21 % 2 ^ 27 * 2 ^ 21 :=
    toNat_and_field 21 27 (by decide) phys
  have hrest : (phys &&& 0x0000ffffffe00000#64 ||| (lo ||| mmuPage).setWidth 64).toNat =
      phys.toNat / 2 ^ 21 % 2 ^ 27 * 2 ^ 21 + (lo.toNat + 1) := by
    rw [toNat_or_eq_add (k := 21), hphys, hlow]
    · rw [hphys]
      exact Nat.dvd_mul_left _ _
    · omega
  rw [blockEntry, BitVec.or_comm, toNat_or_eq_add (k := 52), hhigh, hrest]
  · rw [hhigh]
    exact Nat.dvd_mul_left _ _
  · omega

/-- The address field of an entry is the address, if it is aligned and fits. -/
theorem address_field (lo len : ℕ) {x rest high : ℕ} (hx : x % 2 ^ lo = 0)
    (hlt : x < 2 ^ (lo + len)) (hrest : rest < 2 ^ lo) (hhigh : 2 ^ (lo + len) ∣ high) :
    field lo len (high + (x / 2 ^ lo % 2 ^ len * 2 ^ lo + rest)) = x := by
  obtain ⟨high, rfl⟩ := hhigh
  have hquot : x / 2 ^ lo < 2 ^ len := by
    rw [Nat.div_lt_iff_lt_mul (Nat.two_pow_pos _), ← pow_add, Nat.add_comm]
    exact hlt
  have hsum : 2 ^ (lo + len) * high + (x / 2 ^ lo * 2 ^ lo + rest) =
      rest + 2 ^ lo * (x / 2 ^ lo + 2 ^ len * high) := by
    rw [pow_add]
    ring
  rw [field, Nat.mod_eq_of_lt hquot, hsum, Nat.add_mul_div_left _ _ (Nat.two_pow_pos _),
    Nat.div_eq_of_lt hrest, Nat.zero_add, Nat.add_mul_mod_self_left, Nat.mod_eq_of_lt hquot]
  exact Nat.div_mul_cancel (Nat.dvd_of_mod_eq_zero hx)

theorem table_pageEntry (h : Attributes lo hi) : Table (pageEntry phys lo hi) := by
  have hmod := h.low_mod
  rw [table_iff, toNat_pageEntry h]
  omega

theorem block_blockEntry (h : Attributes lo hi) : Block (blockEntry phys lo hi) := by
  have hmod := h.low_mod
  rw [block_iff, toNat_blockEntry h]
  omega

/-- A block entry carries what is requested. -/
theorem attributes_blockEntry (h : Attributes lo hi) :
    attributes (blockEntry phys lo hi) = requested lo hi := by
  obtain ⟨hmod, hlo, hhi⟩ := h
  rw [← BitVec.toNat_inj, toNat_attributes, toNat_blockEntry ⟨hmod, hlo, hhi⟩,
    toNat_requested ⟨hmod, hlo, hhi⟩]
  omega

/-- A page entry does if no upper attribute is requested: those go to the wrong place. -/
theorem attributes_pageEntry (h : Attributes lo hi) (hzero : hi = 0) :
    attributes (pageEntry phys lo hi) = requested lo hi := by
  subst hzero
  obtain ⟨hmod, hlo, hhi⟩ := h
  rw [← BitVec.toNat_inj, toNat_attributes, toNat_pageEntry ⟨hmod, hlo, hhi⟩,
    toNat_requested ⟨hmod, hlo, hhi⟩]
  show (0 * 2 ^ 48 + _) / 2 ^ 48 * 2 ^ 48 + (0 * 2 ^ 48 + _) % 2 ^ 12 / 4 * 4 = 0 * 2 ^ 52 + _
  omega

/-! ### A page -/

/-- An entry of a page table changes. -/
theorem Owned.setPage (h : Owned s own) (hp : own p = .leaves v j) (i : ℕ) (e : Entry) :
    Owned (s.setEntry p i e) own := by
  have hpages : ∀ q, own q ≠ .leaves v j → ∀ k, (s.setEntry p i e).pages q k = s.pages q k := by
    intro q hq k
    rw [pages_setEntry, if_neg]
    rintro ⟨rfl, -⟩
    exact hq hp
  have hslot : ∀ x, (s.setEntry p i e).slotEntry x = s.slotEntry x := by
    intro x
    rw [State.slotEntry, root_setEntry]
    exact hpages _ (by simp [h.roots]) _
  refine ⟨h.roots, ?_, ?_, ?_, ?_, h.free, h.nodup⟩
  · intro x hx
    rw [hslot, hslot, h.mirrored x hx]
  · intro x hx
    rw [hslot]
    exact h.slots x hx
  · intro q x hq k hk
    rw [hpages q (by simp [hq])]
    exact h.dirs q x hq k hk
  · intro q x hq
    rw [hslot]
    exact h.hung q x hq

theorem Owned.kept_setPage (h : Owned s own) (hp : own p = .leaves v j)
    (ha : ¬((canon (slotOf a) = v ∧ idxL2 a = j) ∧ idxL3 a = i)) :
    Kept s (s.setEntry p i e) a := by
  refine h.kept ?_ ?_ ?_
  · rw [entry1_eq, entry1_eq, State.slotEntry, root_setEntry, pages_setEntry, if_neg]
    · rfl
    · exact fun heq ↦ h.ne_root (by simp [hp]) _ heq.1
  · intro q hq
    rw [pages_setEntry, if_neg]
    rintro ⟨rfl, -⟩
    rw [hp] at hq
    cases hq
  · intro q hq
    rw [pages_setEntry, if_neg]
    rintro ⟨rfl, hi⟩
    rw [hp] at hq
    obtain ⟨hslot, hidx⟩ := Owner.leaves.inj hq
    exact ha ⟨⟨hslot.symm, hidx.symm⟩, hi⟩

/-- An address in the 2 MiB of a page table. -/
theorem Owned.path_setPage (h : Owned s own) (hp : own p = .leaves v j) (ht : Aligned t)
    (halign : Aligned p) (hown : own t = .dir v) (hlink : s.slotEntry v = 3 ||| t)
    (hlink₂ : s.pages t j = 3 ||| p) (ha : canon (slotOf a) = v ∧ idxL2 a = j) :
    Table (entry1 (s.setEntry p i e) a) ∧ Table (entry2 (s.setEntry p i e) a) ∧
      entry3 (s.setEntry p i e) a = (s.setEntry p i e).pages p (idxL3 a) := by
  have hne : ∀ k, s.root k ≠ p := h.ne_root (by simp [hp])
  have hnet : t ≠ p := by
    rintro rfl
    rw [hp] at hown
    cases hown
  have h₁ : entry1 (s.setEntry p i e) a = 3 ||| t := by
    rw [entry1_eq, State.slotEntry, root_setEntry, pages_setEntry, if_neg fun heq ↦ hne _ heq.1]
    show s.slotEntry (slotOf a) = _
    rw [h.mirrored _ idxL1_lt, ha.1, hlink]
  have h₂ : entry2 (s.setEntry p i e) a = 3 ||| p := by
    rw [entry2, h₁, ht.link.1, pages_setEntry, if_neg fun heq ↦ hnet heq.1, ha.2, hlink₂]
  rw [h₁, h₂]
  refine ⟨ht.table, halign.table, ?_⟩
  rw [entry3, h₂, halign.link.1]

/-- What is seen through an entry of a page table. -/
theorem seesAt_page (hattr : Attributes lo hi) (hzero : hi = 0) (hvirt : virt.toNat % 4096 = 0)
    (hphys : phys.toNat % 4096 = 0) (hlimit : phys.toNat + 4096 ≤ 2 ^ 48)
    (h₁ : Table (entry1 s a)) (h₂ : Table (entry2 s a)) (h₃ : entry3 s a = pageEntry phys lo hi)
    (ha : image a / 2 ^ 12 = virt.toNat / 2 ^ 12) : SeesAt s a phys virt (requested lo hi) := by
  have htable : Table (entry3 s a) := h₃ ▸ table_pageEntry hattr
  have himage := image_mod a
  have hphys' : (pageEntry phys lo hi &&& 0xfffffffff000).toNat = phys.toNat := by
    have hlo := hattr.low_lt
    have hhi := hattr.high_lt
    have hmod := hattr.low_mod
    have hhigh : 2 ^ (12 + 36) ∣ hi.toNat * 2 ^ 48 := Nat.dvd_mul_left _ _
    rw [toNat_and_field 12 36 (by decide), toNat_pageEntry hattr]
    exact address_field 12 36 (by omega) (by omega) (by omega) hhigh
  have hlow : (a &&& 0xfff).toNat = a.toNat % 2 ^ 12 := by
    rw [toNat_and_field 0 12 (by decide), field]
    omega
  rw [SeesAt, view_page h₁ h₂ htable, h₃]
  refine ⟨?_, congrArg some (attributes_pageEntry hattr hzero)⟩
  rw [BitVec.toNat_add, hphys', hlow]
  omega

/-- What an address shares with the stretch of a put is clean. -/
theorem Intact.slot {n : ℕ} (h : Intact s a virt.toNat n small) (ha : Valid a)
    (hrange : Original virt.toNat n) (hn : 0 < n) :
    canon (slotOf a) = slotOf virt → ∀ e, Block1 s a e → Clean e := by
  intro hslot e he
  refine h.block1 e he ⟨virt.toNat, le_rfl, by omega, ?_⟩
  exact ((same_slot_iff ha hrange hn).mp hslot).symm

theorem Intact.region {n : ℕ} (h : Intact s a virt.toNat n small) (ha : Valid a)
    (hrange : Original virt.toNat n) (hn : 0 < n) (hsmall : small virt.toNat) :
    canon (slotOf a) = slotOf virt ∧ idxL2 a = idxL2 virt → ∀ e, Block2 s a e → Clean e := by
  intro hregion e he
  refine h.block2 e he ⟨virt.toNat, ⟨le_rfl, by omega⟩, hsmall, ?_⟩
  exact ((same_region_iff ha hrange hn).mp hregion).symm

theorem Owned.put4kPage (h : Owned s own) (hattr : Attributes lo hi) (hzero : hi = 0)
    (hrange : Original virt.toNat 4096) (hvirt : virt.toNat % 4096 = 0)
    (hphys : phys.toNat % 4096 = 0) (hlimit : phys.toNat + 4096 ≤ 2 ^ 48)
    (hsmall : small virt.toNat) (hrun : put4kPage s phys virt lo hi = some s') :
    ∃ own', Owned s' own' ∧ Mapped s s' phys virt (requested lo hi) 4096 small := by
  unfold Mmu.put4kPage at hrun
  obtain ⟨⟨t, s₁⟩, hdir, hrun⟩ := Option.bind_eq_some_iff.mp hrun
  obtain ⟨⟨p, s₂⟩, htable, hrun⟩ := Option.bind_eq_some_iff.mp hrun
  obtain rfl : s₂.setEntry p (idxL3 virt) (pageEntry phys lo hi) = s' := Option.some.inj hrun
  have hv := hrange.canon_eq (by decide)
  obtain ⟨own₁, h₁, ht, hlink, halign, hkept₁⟩ := h.directory hv hdir
  obtain ⟨own₂, h₂, hp, hpalign, hlink₂, hlink₃, hkept₂⟩ := h₁.pageTable hv ht halign hlink htable
  -- the path of an address of the same page leads to the new entry
  have hpath : ∀ a, Valid a → image a / 2 ^ 12 = virt.toNat / 2 ^ 12 →
      Table (entry1 (s₂.setEntry p (idxL3 virt) (pageEntry phys lo hi)) a) ∧
        Table (entry2 (s₂.setEntry p (idxL3 virt) (pageEntry phys lo hi)) a) ∧
        entry3 (s₂.setEntry p (idxL3 virt) (pageEntry phys lo hi)) a = pageEntry phys lo hi := by
    intro a ha hpage
    obtain ⟨hregion, hidx⟩ := (same_page_iff ha hrange (by decide)).mpr hpage
    obtain ⟨q, hq, hqown, hentry⟩ := h₂.dir (a := virt) (by rw [hlink₂]; exact halign.table)
    obtain rfl : t = q := by
      rw [← halign.link.1, ← hlink₂, hq]
      exact ((h₂.hung q _ hqown).2.2).link.1
    rw [hv] at hqown
    have hslot : s₂.slotEntry (slotOf virt) = 3 ||| t := by rw [← entry1_eq, hlink₂]
    have hlink₃' : s₂.pages t (idxL2 virt) = 3 ||| p := by rw [← hentry s₂ hlink₂, hlink₃]
    obtain ⟨hone, htwo, hthree⟩ := h₂.path_setPage (i := idxL3 virt) (e := pageEntry phys lo hi) hp
      halign hpalign hqown hslot hlink₃' hregion
    refine ⟨hone, htwo, hthree.trans ?_⟩
    rw [pages_setEntry, if_pos ⟨rfl, hidx⟩]
  refine ⟨own₂, h₂.setPage hp _ _, fun a ha hlo hhi ↦ ?_, fun a ha hlo hhi e he ↦ ?_,
    fun a ha hlo hhi e he ↦ ?_, fun a ha hout hintact ↦ ?_⟩
  · have hpage : image a / 2 ^ 12 = virt.toNat / 2 ^ 12 := by omega
    obtain ⟨hone, htwo, hthree⟩ := hpath a ha hpage
    exact seesAt_page hattr hzero hvirt hphys hlimit hone htwo hthree hpage
  · obtain ⟨hone, -, -⟩ := hpath a ha (by omega)
    obtain ⟨rfl, hblock⟩ := he
    exact not_block hone hblock
  · obtain ⟨-, htwo, -⟩ := hpath a ha (by omega)
    obtain ⟨-, rfl, hblock⟩ := he
    exact absurd hblock (not_block htwo)
  · have hfirst := hkept₁ a (hintact.slot ha hrange (by decide))
    have hsecond := hkept₂ a ((hfirst.intact hintact).region ha hrange (by decide) hsmall)
    refine (hfirst.trans hsecond).trans (h₂.kept_setPage hp fun hsame ↦ ?_)
    have hpage := (same_page_iff ha hrange (by decide)).mp hsame
    omega

/-! ### A block -/

/-- An entry of a directory becomes a block, and its page table, if it had one, is free. -/
theorem Owned.setBlock (h : Owned s own) (ht : own t = .dir v) (hj : j < 512) (hblock : Block e)
    {s₂ : State} (hs₂ : s₂ = if s.pages t j &&& 3 = 3 then
      free4kPage s (s.pages t j &&& 0x7ffffff000) else s) :
    EntrySet s (s₂.setEntry t j e) own t j e ∧ ∃ own', Owned (s₂.setEntry t j e) own' := by
  have hpages : s₂.pages = s.pages ∧ s₂.root = s.root := by
    rw [hs₂]
    split <;> exact ⟨rfl, rfl⟩
  have hset : EntrySet s (s₂.setEntry t j e) own t j e := by
    refine ⟨hpages.2, ?_, fun q _ i hi ↦ ?_⟩
    · rw [pages_setEntry, if_pos ⟨rfl, rfl⟩]
    · rw [pages_setEntry, if_neg hi, hpages.1]
  refine ⟨hset, ?_⟩
  by_cases htable : s.pages t j &&& 3 = 3
  · obtain ⟨u, hlink, hu, hown⟩ := (h.dirs t v ht j hj).table htable
    rw [if_pos htable, hlink, hu.link.2] at hs₂
    have hne : ∀ q, own q ≠ .leaves v j → q ≠ u := by
      rintro q hq rfl
      exact hq hown
    refine ⟨Function.update own u .pool, ?_, h.mirrored_entrySet ht hset, ?_, ?_, ?_, ?_, ?_⟩
    · intro k
      rw [hset.root_eq, Function.update_of_ne (hne _ (by simp [h.roots]))]
      exact h.roots k
    · intro x hx
      rw [h.slotEntry_entrySet ht hset]
      rcases h.slots x hx with hempty | hblock | ⟨q, heq, hq, hqown⟩
      · exact .inl hempty
      · exact .inr (.inl hblock)
      · refine .inr (.inr ⟨q, heq, hq, ?_⟩)
        rw [Function.update_of_ne (hne q (by simp [hqown])), hqown]
    · intro q x hq i hi
      have hqu : q ≠ u := by
        rintro rfl
        rw [Function.update_self] at hq
        cases hq
      rw [Function.update_of_ne hqu] at hq
      by_cases heq : q = t ∧ i = j
      · obtain ⟨rfl, rfl⟩ := heq
        rw [hset.entry]
        exact .inr (.inl hblock)
      · rw [hset.other q (by simp [hq]) i heq]
        rcases h.dirs q x hq i hi with hempty | hblock | ⟨r, hr, hralign, hrown⟩
        · exact .inl hempty
        · exact .inr (.inl hblock)
        · refine .inr (.inr ⟨r, hr, hralign, ?_⟩)
          rw [Function.update_of_ne ?_, hrown]
          rintro rfl
          obtain ⟨rfl, rfl⟩ := Owner.leaves.inj (hrown.symm.trans hown)
          -- a slot has one directory, so the entry is the one that was set
          have hsame : q = t := by
            rw [← (h.hung q x hq).2.2.link.1, ← (h.hung q x hq).2.1, (h.hung t x ht).2.1,
              (h.hung t x ht).2.2.link.1]
          exact heq ⟨hsame, rfl⟩
    · intro q x hq
      have hqu : q ≠ u := by
        rintro rfl
        rw [Function.update_self] at hq
        cases hq
      rw [Function.update_of_ne hqu] at hq
      rw [h.slotEntry_entrySet ht hset]
      exact h.hung q x hq
    · rw [hs₂]
      intro q hq
      rcases List.mem_cons.mp hq with rfl | hq
      · exact ⟨Function.update_self .., hu⟩
      · obtain ⟨hqown, hqalign⟩ := h.free q hq
        rw [Function.update_of_ne (hne q (by simp [hqown]))]
        exact ⟨hqown, hqalign⟩
    · rw [hs₂]
      refine List.nodup_cons.mpr ⟨fun hmem ↦ ?_, h.nodup⟩
      obtain ⟨hpool, -⟩ := h.free u hmem
      rw [hown] at hpool
      cases hpool
  · rw [if_neg htable] at hs₂
    subst hs₂
    refine ⟨own, h.roots, h.mirrored_entrySet ht hset, ?_, ?_, ?_, h.free, h.nodup⟩
    · intro x hx
      rw [h.slotEntry_entrySet ht hset]
      exact h.slots x hx
    · intro q x hq i hi
      by_cases heq : q = t ∧ i = j
      · obtain ⟨rfl, rfl⟩ := heq
        rw [hset.entry]
        exact .inr (.inl hblock)
      · rw [hset.other q (by simp [hq]) i heq]
        exact h.dirs q x hq i hi
    · intro q x hq
      rw [h.slotEntry_entrySet ht hset]
      exact h.hung q x hq

theorem seesAt_block (hattr : Attributes lo hi) (hvirt : virt.toNat % 2 ^ 21 = 0)
    (hphys : phys.toNat % 2 ^ 21 = 0) (hlimit : phys.toNat + 2 ^ 21 ≤ 2 ^ 48)
    (h₁ : Table (entry1 s a)) (h₂ : entry2 s a = blockEntry phys lo hi)
    (ha : image a / 2 ^ 21 = virt.toNat / 2 ^ 21) : SeesAt s a phys virt (requested lo hi) := by
  have hblock : Block (entry2 s a) := h₂ ▸ block_blockEntry hattr
  have himage := image_mod a
  have hphys' : (blockEntry phys lo hi &&& 0xffffffe00000).toNat = phys.toNat := by
    have hlo := hattr.low_lt
    have hhi := hattr.high_lt
    have hhigh : 2 ^ (21 + 27) ∣ hi.toNat * 2 ^ 52 :=
      (Nat.pow_dvd_pow 2 (by decide)).trans (Nat.dvd_mul_left _ _)
    rw [toNat_and_field 21 27 (by decide), toNat_blockEntry hattr]
    exact address_field 21 27 (by omega) (by omega) (by omega) hhigh
  have hlow : (a &&& 0x1fffff).toNat = a.toNat % 2 ^ 21 := by
    rw [toNat_and_field 0 21 (by decide), field]
    omega
  rw [SeesAt, view_block2 h₁ hblock, h₂]
  refine ⟨?_, congrArg some (attributes_blockEntry hattr)⟩
  rw [BitVec.toNat_add, hphys', hlow]
  omega

theorem Owned.put2mPage (h : Owned s own) (hattr : Attributes lo hi)
    (hrange : Original virt.toNat (2 ^ 21)) (hvirt : virt.toNat % 2 ^ 21 = 0)
    (hphys : phys.toNat % 2 ^ 21 = 0) (hlimit : phys.toNat + 2 ^ 21 ≤ 2 ^ 48)
    (hrun : put2mPage s phys virt lo hi = some s') :
    ∃ own', Owned s' own' ∧ Mapped s s' phys virt (requested lo hi) (2 ^ 21) small := by
  unfold Mmu.put2mPage at hrun
  obtain ⟨⟨t, s₁⟩, hdir, hrun⟩ := Option.bind_eq_some_iff.mp hrun
  obtain rfl : (if s₁.pages t (idxL2 virt) &&& 3 = 3 then
      free4kPage s₁ (s₁.pages t (idxL2 virt) &&& 0x7ffffff000) else s₁).setEntry t (idxL2 virt)
        (blockEntry phys lo hi) = s' := Option.some.inj hrun
  have hv := hrange.canon_eq (by decide)
  obtain ⟨own₁, h₁, ht, hlink, halign, hkept⟩ := h.directory hv hdir
  obtain ⟨hset, own₂, h₂⟩ := h₁.setBlock (e := blockEntry phys lo hi) ht idxL2_lt
    (block_blockEntry hattr) rfl
  refine ⟨own₂, h₂, ?_⟩
  have hslot : s₁.slotEntry (slotOf virt) = 3 ||| t := by rw [← entry1_eq, hlink]
  have hpath := fun a (ha : Valid a) (hregion : image a / 2 ^ 21 = virt.toNat / 2 ^ 21) ↦
    h₁.path_entrySet ht hset halign hslot ((same_region_iff ha hrange (by decide)).mpr hregion)
  refine ⟨fun a ha hlo hhi ↦ ?_, fun a ha hlo hhi e he ↦ ?_, fun a ha hlo hhi e he ↦ ?_,
    fun a ha hout hintact ↦ ?_⟩
  · have hregion : image a / 2 ^ 21 = virt.toNat / 2 ^ 21 := by omega
    obtain ⟨-, -, hone, htwo⟩ := hpath a ha hregion
    exact seesAt_block hattr hvirt hphys hlimit (hone ▸ halign.table) htwo hregion
  · obtain ⟨-, -, hone, -⟩ := hpath a ha (by omega)
    obtain ⟨rfl, hblock⟩ := he
    rw [hone] at hblock
    exact not_block halign.table hblock
  · exact .inr (by omega)
  · refine (hkept a (hintact.slot ha hrange (by decide))).trans (h₁.kept_entrySet ht hset ?_)
    intro hsame
    have hregion := (same_region_iff ha hrange (by decide)).mp hsame
    omega

end Emu68.Mmu

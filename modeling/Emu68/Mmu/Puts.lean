import Emu68.Mmu.Ownership

/-!
The operations of `mmu.c` on the tables. Making a directory or a page table changes nothing that is
seen, as long as the block that it replaces is clean; putting an entry changes what it covers, and
its mirror images.
-/

set_option autoImplicit false
set_option relaxedAutoImplicit false

namespace Emu68.Mmu

variable {s s' : State} {own : Address → Owner} {a p q t virt : Address} {e : Entry} {x v : Slot}
  {i j : ℕ} {f : Page}

/-! ### Writes -/

theorem pages_setEntry (s : State) (t : Address) (i : ℕ) (e : Entry) (q : Address) (j : ℕ) :
    (s.setEntry t i e).pages q j = if q = t ∧ j = i then e else s.pages q j := by
  by_cases ht : q = t
  · subst ht
    by_cases hi : j = i
    · subst hi
      simp [State.setEntry]
    · simp [State.setEntry, hi]
  · simp [State.setEntry, ht]

theorem pages_fill (s : State) (p : Address) (f : Page) (q : Address) :
    (s.fill p f).pages q = if q = p then f else s.pages q := by
  by_cases hq : q = p
  · subst hq
    simp [State.fill]
  · simp [State.fill, hq]

@[simp] theorem root_setEntry (s : State) (t : Address) (i : ℕ) (e : Entry) (kernel : Bool) :
    (s.setEntry t i e).root kernel = s.root kernel := rfl

@[simp] theorem root_fill (s : State) (p : Address) (f : Page) (kernel : Bool) :
    (s.fill p f).root kernel = s.root kernel := rfl

@[simp] theorem root_mirrorPage (s : State) (virt : Address) (kernel : Bool) :
    (mirrorPage s virt).root kernel = s.root kernel := by
  unfold mirrorPage
  split <;> rfl

theorem rootOf_eq (s : State) (a : Address) : rootOf s a = s.root (slotOf a).1 := by
  unfold rootOf State.root slotOf
  by_cases hkernel : isKernel a <;> simp [hkernel]

/-- A page of another owner is no root. -/
theorem Owned.ne_root (h : Owned s own) (hp : ∀ k, own p ≠ .root k) (k : Bool) : s.root k ≠ p := by
  rintro rfl
  exact hp k (h.roots k)

theorem Owned.root_inj (h : Owned s own) : Function.Injective s.root := by
  intro k k' heq
  have hroot := h.roots k
  rw [heq, h.roots k'] at hroot
  exact (Owner.root.inj hroot).symm

theorem slotEntry_setEntry (hroot : Function.Injective s.root) (v : Slot) (e : Entry) (x : Slot) :
    (s.setEntry (s.root v.1) v.2 e).slotEntry x = if x = v then e else s.slotEntry x := by
  rw [State.slotEntry, root_setEntry, pages_setEntry]
  by_cases hx : x = v
  · subst hx
    rw [if_pos ⟨rfl, rfl⟩, if_pos rfl]
  · rw [if_neg fun heq ↦ hx (Prod.ext (hroot heq.1) heq.2), if_neg hx]
    rfl

theorem slotEntry_mirrorPage (hroot : Function.Injective s.root) (x : Slot) :
    (mirrorPage s virt).slotEntry x =
      if ¬isKernel virt ∧ idxL1 virt < 4 ∧ (x = (false, idxL1 virt + 4) ∨
        x = (true, 508 + idxL1 virt)) then s.slotEntry (false, idxL1 virt)
      else s.slotEntry x := by
  by_cases hlow : ¬isKernel virt ∧ idxL1 virt < 4
  · set s₁ := s.setEntry (s.root false) (idxL1 virt + 4) (s.slotEntry (false, idxL1 virt)) with hs₁
    have hfirst : ∀ y, s₁.slotEntry y =
        if y = (false, idxL1 virt + 4) then s.slotEntry (false, idxL1 virt) else s.slotEntry y :=
      slotEntry_setEntry hroot (false, idxL1 virt + 4) _
    have hmirror : mirrorPage s virt =
        s₁.setEntry (s₁.root true) (508 + idxL1 virt) (s₁.slotEntry (false, idxL1 virt)) :=
      if_pos hlow
    have hroot₁ : Function.Injective s₁.root := hroot
    rw [hmirror, slotEntry_setEntry hroot₁ (true, 508 + idxL1 virt), hfirst, hfirst]
    have hsame : ((false, idxL1 virt) : Slot) ≠ (false, idxL1 virt + 4) := by simp
    rw [if_neg hsame]
    by_cases hkernel : x = (true, 508 + idxL1 virt)
    · rw [if_pos hkernel, if_pos ⟨hlow.1, hlow.2, .inr hkernel⟩]
    · rw [if_neg hkernel]
      by_cases huser : x = (false, idxL1 virt + 4)
      · rw [if_pos huser, if_pos ⟨hlow.1, hlow.2, .inl huser⟩]
      · rw [if_neg huser, if_neg]
        rintro ⟨-, -, hx | hx⟩
        · exact huser hx
        · exact hkernel hx
  · have hmirror : mirrorPage s virt = s := if_neg hlow
    rw [hmirror, if_neg]
    rintro ⟨h₁, h₂, -⟩
    exact hlow ⟨h₁, h₂⟩

/-- The mirrors of a slot that is none itself. -/
theorem canon_eq_iff (hx : x.2 < 512) (hv : canon v = v) :
    canon x = v ↔ x = v ∨ v.1 = false ∧ v.2 < 4 ∧ (x = (false, v.2 + 4) ∨ x = (true, 508 + v.2)) := by
  obtain ⟨k, i⟩ := x
  obtain ⟨k', j⟩ := v
  have hi : i < 512 := hx
  cases k <;> cases k' <;> simp only [canon] at hv ⊢ <;> split_ifs at hv ⊢ <;>
    simp only [Prod.mk.injEq, true_and, false_and, or_false, false_or, false_iff,
      Bool.false_eq_true, Bool.true_eq_false] at hv ⊢ <;> omega

/-! ### A new directory -/

/-- A new page is hung into the slot of an address, and into its mirrors. -/
def hang (s : State) (p : Address) (f : Page) (virt : Address) : State :=
  mirrorPage ((s.fill p f).setEntry (rootOf s virt) (idxL1 virt) (3 ||| p)) virt

theorem root_hang (k : Bool) : (hang s p f virt).root k = s.root k := by
  rw [hang, root_mirrorPage]
  rfl

theorem Owned.slotEntry_fill (h : Owned s own) (hp : own p = .pool) (x : Slot) :
    (s.fill p f).slotEntry x = s.slotEntry x := by
  rw [State.slotEntry, root_fill, pages_fill, if_neg (h.ne_root (by simp [hp]) _)]
  rfl

theorem Owned.slotEntry_hang (h : Owned s own) (hp : own p = .pool)
    (hv : canon (slotOf virt) = slotOf virt) (hx : x.2 < 512) :
    (hang s p f virt).slotEntry x = if canon x = slotOf virt then 3 ||| p else s.slotEntry x := by
  have hset : ∀ y, ((s.fill p f).setEntry (rootOf s virt) (idxL1 virt) (3 ||| p)).slotEntry y =
      if y = slotOf virt then 3 ||| p else s.slotEntry y := by
    intro y
    have hroot : Function.Injective (s.fill p f).root := h.root_inj
    rw [rootOf_eq, ← h.slotEntry_fill hp (f := f)]
    exact slotEntry_setEntry hroot (slotOf virt) _ y
  have hroot : Function.Injective
      ((s.fill p f).setEntry (rootOf s virt) (idxL1 virt) (3 ||| p)).root := h.root_inj
  rw [hang, slotEntry_mirrorPage hroot, hset, hset]
  have hfalse : (slotOf virt).1 = false ↔ ¬isKernel virt := by simp [slotOf]
  by_cases hcanon : canon x = slotOf virt
  · rw [if_pos hcanon]
    rcases (canon_eq_iff hx hv).mp hcanon with rfl | ⟨hkernel, hlow, hmirror⟩
    · split
      · next hmirror =>
        have hslot : ((false, idxL1 virt) : Slot) = slotOf virt :=
          Prod.ext (hfalse.mpr hmirror.1).symm rfl
        exact if_pos hslot
      · exact if_pos rfl
    · have hslot : ((false, idxL1 virt) : Slot) = slotOf virt := Prod.ext hkernel.symm rfl
      rw [if_pos ⟨hfalse.mp hkernel, hlow, hmirror⟩, if_pos hslot]
  · rw [if_neg hcanon]
    have hnot := fun hx' ↦ hcanon ((canon_eq_iff hx hv).mpr hx')
    rw [if_neg, if_neg fun heq ↦ hnot (.inl heq)]
    rintro ⟨hkernel, hlow, hmirror⟩
    exact hnot (.inr ⟨hfalse.mpr hkernel, hlow, hmirror⟩)

/-- Apart from the roots, only the new page is written. -/
theorem Owned.pages_hang (h : Owned s own) (hq : ∀ k, own q ≠ .root k) :
    (hang s p f virt).pages q = if q = p then f else s.pages q := by
  have hne := h.ne_root hq
  have hmirror : ∀ s₁ : State, s₁.root = s.root → (mirrorPage s₁ virt).pages q = s₁.pages q := by
    intro s₁ hs₁
    have h₀ : q ≠ s₁.ttbr0 := fun heq ↦ hne false ((congrFun hs₁ false).symm.trans heq.symm)
    have h₁ : q ≠ s₁.ttbr1 := fun heq ↦ hne true ((congrFun hs₁ true).symm.trans heq.symm)
    unfold mirrorPage
    split
    · funext j
      rw [pages_setEntry, if_neg fun h ↦ h₁ h.1, pages_setEntry, if_neg fun h ↦ h₀ h.1]
    · rfl
  rw [hang, hmirror ((s.fill p f).setEntry (rootOf s virt) (idxL1 virt) (3 ||| p)) rfl]
  funext j
  rw [pages_setEntry, if_neg, pages_fill]
  rw [rootOf_eq]
  exact fun heq ↦ hne _ heq.1.symm

@[simp] theorem freePages_setEntry (s : State) (t : Address) (i : ℕ) (e : Entry) :
    (s.setEntry t i e).freePages = s.freePages := rfl

@[simp] theorem freePages_mirrorPage (s : State) (virt : Address) :
    (mirrorPage s virt).freePages = s.freePages := by
  unfold mirrorPage
  split <;> rfl

theorem freePages_hang : (hang s p f virt).freePages = s.freePages := freePages_mirrorPage _ _

theorem Owned.slotEntry_virt (h : Owned s own) (ha : canon (slotOf a) = v) :
    entry1 s a = s.slotEntry v := by
  rw [entry1_eq, h.mirrored _ idxL1_lt, ha]

/-- A page that is taken from the pool. -/
structure Fresh (s : State) (own : Address → Owner) (p : Address) : Prop where
  own_eq : own p = .pool
  aligned : Aligned p
  notMem : p ∉ s.freePages

/-- The owners after a page is given to somebody. -/
theorem Owned.free_update (h : Owned s own) (hp : Fresh s own p) (o : Owner) :
    ∀ q ∈ s.freePages, Function.update own p o q = .pool ∧ Aligned q := by
  intro q hq
  have hne : q ≠ p := by
    rintro rfl
    exact hp.notMem hq
  rw [Function.update_of_ne hne]
  exact h.free q hq

theorem Owned.hang (h : Owned s own) (hp : Fresh s own p) (hv : canon (slotOf virt) = slotOf virt)
    (hold : ¬Table (entry1 s virt)) (hf : ∀ i < 512, Empty (f i) ∨ Block (f i)) :
    Owned (hang s p f virt) (Function.update own p (.dir (slotOf virt))) where
  roots k := by
    rw [root_hang, Function.update_of_ne (h.ne_root (by simp [hp.own_eq]) k)]
    exact h.roots k
  mirrored x hx := by
    rw [h.slotEntry_hang hp.own_eq hv hx, h.slotEntry_hang hp.own_eq hv (canon_lt hx),
      canon_canon hx, h.mirrored x hx]
  slots x hx := by
    rw [h.slotEntry_hang hp.own_eq hv hx]
    split
    · next hcanon => exact .inr (.inr ⟨p, rfl, hp.aligned, by rw [Function.update_self, hcanon]⟩)
    · exact (h.slots x hx).update hp.own_eq (by simp)
  dirs q x hq j hj := by
    have hroot : ∀ k, own q ≠ .root k := by
      intro k hk
      obtain rfl | hne := eq_or_ne q p
      · rw [hp.own_eq] at hk
        cases hk
      · rw [Function.update_of_ne hne, hk] at hq
        cases hq
    rw [h.pages_hang hroot]
    split
    · rcases hf j hj with hempty | hblock
      · exact .inl hempty
      · exact .inr (.inl hblock)
    · next hne =>
      rw [Function.update_of_ne hne] at hq
      exact (h.dirs q x hq j hj).update hp.own_eq (by simp)
  hung q x hq := by
    obtain rfl | hne := eq_or_ne q p
    · rw [Function.update_self] at hq
      obtain rfl := Owner.dir.inj hq
      refine ⟨idxL1_lt, ?_, hp.aligned⟩
      rw [h.slotEntry_hang hp.own_eq hv idxL1_lt, if_pos hv]
    · rw [Function.update_of_ne hne] at hq
      obtain ⟨hx, hlink, haligned⟩ := h.hung q x hq
      refine ⟨hx, ?_, haligned⟩
      rw [h.slotEntry_hang hp.own_eq hv hx, if_neg, hlink]
      intro hcanon
      rw [entry1_eq, ← hcanon, ← h.mirrored x hx, hlink] at hold
      exact hold haligned.table
  free := by
    rw [freePages_hang]
    exact h.free_update hp _
  nodup := by
    rw [freePages_hang]
    exact h.nodup

/-- Addresses of other slots are kept. -/
theorem Owned.kept_hang (h : Owned s own) (hp : Fresh s own p)
    (hv : canon (slotOf virt) = slotOf virt) (ha : canon (slotOf a) ≠ slotOf virt) :
    Kept s (Mmu.hang s p f virt) a := by
  refine h.kept ?_ ?_ ?_
  · rw [entry1_eq, entry1_eq, h.slotEntry_hang hp.own_eq hv idxL1_lt, if_neg ha]
  · intro q hq
    rw [h.pages_hang (by simp [hq]), if_neg]
    rintro rfl
    rw [hp.own_eq] at hq
    cases hq
  · intro q hq
    rw [h.pages_hang (by simp [hq]), if_neg]
    rintro rfl
    rw [hp.own_eq] at hq
    cases hq

/-- The path of an address of the slot leads through the new page. -/
theorem Owned.path_hang (h : Owned s own) (hp : Fresh s own p)
    (hv : canon (slotOf virt) = slotOf virt) (ha : canon (slotOf a) = slotOf virt) :
    entry1 (Mmu.hang s p f virt) a = 3 ||| p ∧ entry2 (Mmu.hang s p f virt) a = f (idxL2 a) := by
  have hentry : entry1 (Mmu.hang s p f virt) a = 3 ||| p := by
    rw [entry1_eq, h.slotEntry_hang hp.own_eq hv idxL1_lt, if_pos ha]
  refine ⟨hentry, ?_⟩
  rw [entry2, hentry, hp.aligned.link.1, h.pages_hang (by simp [hp.own_eq]), if_pos rfl]

theorem Owned.kept_hang_empty (h : Owned s own) (hp : Fresh s own p)
    (hv : canon (slotOf virt) = slotOf virt) (hempty : Empty (entry1 s virt)) :
    Kept s (Mmu.hang s p (fun _ ↦ 0) virt) a := by
  by_cases ha : canon (slotOf a) = slotOf virt
  · obtain ⟨h₁, h₂⟩ := h.path_hang (f := fun _ ↦ 0) hp hv ha
    have hold : Empty (entry1 s a) := by
      rwa [h.slotEntry_virt ha, ← h.slotEntry_virt hv]
    have htable : Table (entry1 (Mmu.hang s p (fun _ ↦ 0) virt) a) := h₁ ▸ hp.aligned.table
    have hzero : Empty (entry2 (Mmu.hang s p (fun _ ↦ 0) virt) a) := by
      rw [h₂]
      decide
    refine ⟨?_, ?_, ?_⟩
    · rw [view_empty hold, view_empty2 htable hzero]
    · rintro e ⟨rfl, hblock⟩
      exact absurd hblock (not_block htable)
    · rintro e ⟨-, rfl, hblock⟩
      exact absurd hblock (not_block_of_empty hzero)
  · exact h.kept_hang hp hv ha

theorem Owned.kept_hang_block (h : Owned s own) (hp : Fresh s own p)
    (hv : canon (slotOf virt) = slotOf virt) (hblock : Block (entry1 s virt))
    (hclean : canon (slotOf a) = slotOf virt → ∀ e, Block1 s a e → Clean e) :
    Kept s (Mmu.hang s p (splitEntry (entry1 s virt)) virt) a := by
  by_cases ha : canon (slotOf a) = slotOf virt
  · obtain ⟨h₁, h₂⟩ := h.path_hang (f := splitEntry (entry1 s virt)) hp hv ha
    have hsame : entry1 s a = entry1 s virt := by rw [h.slotEntry_virt ha, h.slotEntry_virt hv]
    have hold : Block (entry1 s a) := hsame ▸ hblock
    have htable : Table (entry1 (Mmu.hang s p (splitEntry (entry1 s virt)) virt) a) :=
      h₁ ▸ hp.aligned.table
    rw [← hsame] at h₂ htable ⊢
    have hpiece : Block (entry2 (Mmu.hang s p (splitEntry (entry1 s a)) virt) a) := by
      rw [h₂]
      exact block_splitEntry idxL2_lt hold
    refine ⟨?_, ?_, ?_⟩
    · obtain ⟨hphys, hattributes⟩ := seen_splitEntry (hclean ha _ ⟨rfl, hold⟩) a
      rw [view_block hold, view_block2 htable hpiece, h₂, hphys, hattributes]
    · rintro e ⟨rfl, hblock'⟩
      exact absurd hblock' (not_block htable)
    · rintro e ⟨-, rfl, -⟩
      rw [h₂]
      exact .inl (clean_splitEntry idxL2_lt)
  · exact h.kept_hang hp hv ha

theorem Owned.get4kPage (h : Owned s own) (hget : get4kPage s = some (p, s')) :
    Owned s' own ∧ Fresh s' own p ∧ ∃ rest, s' = { s with freePages := rest } := by
  unfold Mmu.get4kPage at hget
  cases hfree : s.freePages with
  | nil =>
    rw [hfree] at hget
    cases hget
  | cons q rest =>
    rw [hfree] at hget
    cases hget
    have hmem := h.free
    have hnodup := h.nodup
    rw [hfree] at hmem hnodup
    obtain ⟨hown, haligned⟩ := hmem p (List.mem_cons_self ..)
    refine ⟨⟨h.roots, h.mirrored, h.slots, h.dirs, h.hung,
      fun q' hq' ↦ hmem q' (List.mem_cons_of_mem _ hq'), hnodup.of_cons⟩, ?_, rest, rfl⟩
    exact ⟨hown, haligned, (List.nodup_cons.mp hnodup).1⟩

/-- Taking a page from the pool is not seen. -/
theorem Kept.of_freePages {rest : List Address} (h : Kept { s with freePages := rest } s' a) :
    Kept s s' a :=
  ⟨h.view_eq, h.block1, h.block2⟩

/-- `directory`: what is seen stays, if the block that is split is clean. -/
theorem Owned.directory (h : Owned s own) (hv : canon (slotOf virt) = slotOf virt)
    (hrun : directory s virt = some (p, s')) :
    ∃ own', Owned s' own' ∧ own' p = .dir (slotOf virt) ∧ entry1 s' virt = 3 ||| p ∧ Aligned p ∧
      ∀ a, (canon (slotOf a) = slotOf virt → ∀ e, Block1 s a e → Clean e) → Kept s s' a := by
  unfold Mmu.directory at hrun
  dsimp only at hrun
  split_ifs at hrun with hempty hblock
  · obtain ⟨⟨q, s₁⟩, hget, hrun⟩ := Option.bind_eq_some_iff.mp hrun
    obtain ⟨h₁, hfresh, rest, rfl⟩ := h.get4kPage hget
    cases hrun
    have hold : ¬Table (entry1 s virt) := not_table_of_empty hempty
    exact ⟨_, h₁.hang (f := fun _ ↦ 0) hfresh hv hold fun _ _ ↦ .inl rfl, Function.update_self ..,
      (h₁.path_hang hfresh hv hv).1, hfresh.aligned,
      fun a _ ↦ (h₁.kept_hang_empty hfresh hv hempty).of_freePages⟩
  · obtain ⟨⟨q, s₁⟩, hget, hrun⟩ := Option.bind_eq_some_iff.mp hrun
    obtain ⟨h₁, hfresh, rest, rfl⟩ := h.get4kPage hget
    cases hrun
    have hold : ¬Table (entry1 s virt) := fun htable ↦ not_block htable hblock
    exact ⟨_, h₁.hang (f := splitEntry (entry1 s virt)) hfresh hv hold
        fun i hi ↦ .inr (block_splitEntry hi hblock), Function.update_self ..,
      (h₁.path_hang hfresh hv hv).1, hfresh.aligned,
      fun a hclean ↦ (h₁.kept_hang_block hfresh hv hblock hclean).of_freePages⟩
  · cases hrun
    have htable : Table (entry1 s virt) := by
      rcases (h.slot virt).kind with hkind | hkind | hkind
      · exact absurd hkind hempty
      · exact absurd hkind hblock
      · exact hkind
    obtain ⟨q, heq, haligned, hown⟩ := (h.slot virt).table htable
    have hlink : s.pages (rootOf s virt) (idxL1 virt) &&& 0x7ffffff000 = q := by
      show entry1 s virt &&& _ = q
      rw [heq, haligned.link.2]
    rw [hlink]
    exact ⟨own, h, hown.trans (by rw [hv]), heq, haligned, fun a _ ↦ .refl s a⟩

/-! ### A new page table -/

/-- An entry of a directory changes, and perhaps a page of no path. -/
structure EntrySet (s s' : State) (own : Address → Owner) (t : Address) (j : ℕ) (e : Entry) :
    Prop where
  root_eq : s'.root = s.root
  entry : s'.pages t j = e
  other : ∀ q, own q ≠ .pool → ∀ i, ¬(q = t ∧ i = j) → s'.pages q i = s.pages q i

/-- Addresses outside of the 2 MiB of the entry are kept. -/
theorem Owned.kept_entrySet (h : Owned s own) (ht : own t = .dir v)
    (hset : EntrySet s s' own t j e) (ha : ¬(canon (slotOf a) = v ∧ idxL2 a = j)) :
    Kept s s' a := by
  refine h.kept ?_ ?_ ?_
  · have hne := h.ne_root (p := t) (by simp [ht]) (slotOf a).1
    have hother := hset.other (s.root (slotOf a).1) (by simp [h.roots]) (idxL1 a)
      fun heq ↦ hne heq.1
    rw [entry1_eq, entry1_eq, State.slotEntry, hset.root_eq]
    exact hother
  · intro q hq
    refine hset.other q (by simp [hq]) _ ?_
    rintro ⟨rfl, hj⟩
    rw [ht] at hq
    exact ha ⟨(Owner.dir.inj hq).symm, hj⟩
  · intro q hq
    refine hset.other q (by simp [hq]) _ ?_
    rintro ⟨rfl, -⟩
    rw [ht] at hq
    cases hq

theorem Owned.slotEntry_entrySet (h : Owned s own) (ht : own t = .dir v)
    (hset : EntrySet s s' own t j e) (x : Slot) : s'.slotEntry x = s.slotEntry x := by
  have hne := h.ne_root (p := t) (by simp [ht]) x.1
  rw [State.slotEntry, hset.root_eq]
  exact hset.other _ (by simp [h.roots]) _ fun heq ↦ hne heq.1

/-- The path of an address in the 2 MiB of the entry. -/
theorem Owned.path_entrySet (h : Owned s own) (ht : own t = .dir v)
    (hset : EntrySet s s' own t j e) (halign : Aligned t) (hlink : s.slotEntry v = 3 ||| t)
    (ha : canon (slotOf a) = v ∧ idxL2 a = j) :
    entry1 s a = 3 ||| t ∧ entry2 s a = s.pages t j ∧ entry1 s' a = 3 ||| t ∧ entry2 s' a = e := by
  have h₁ : entry1 s a = 3 ||| t := (h.slotEntry_virt ha.1).trans hlink
  have h₁' : entry1 s' a = 3 ||| t := by
    rw [← h₁, entry1_eq, entry1_eq, h.slotEntry_entrySet ht hset]
  refine ⟨h₁, ?_, h₁', ?_⟩
  · rw [entry2, h₁, halign.link.1, ha.2]
  · rw [entry2, h₁', halign.link.1, ha.2, hset.entry]

theorem Owned.mirrored_entrySet (h : Owned s own) (ht : own t = .dir v)
    (hset : EntrySet s s' own t j e) (x : Slot) (hx : x.2 < 512) :
    s'.slotEntry x = s'.slotEntry (canon x) := by
  rw [h.slotEntry_entrySet ht hset, h.slotEntry_entrySet ht hset, h.mirrored x hx]

/-- A page table of fresh entries is put under an entry of a directory. -/
def plant (s : State) (t : Address) (j : ℕ) (p : Address) (f : Page) : State :=
  (s.fill p f).setEntry t j (3 ||| p)

theorem Fresh.pages_plant (hp : Fresh s own p) (ht : own t = .dir v) :
    EntrySet s (plant s t j p f) own t j (3 ||| p) ∧ (plant s t j p f).pages p = f := by
  have hne : p ≠ t := by
    rintro rfl
    rw [hp.own_eq] at ht
    cases ht
  refine ⟨⟨rfl, ?_, ?_⟩, ?_⟩
  · rw [plant, pages_setEntry, if_pos ⟨rfl, rfl⟩]
  · intro q hq i hi
    have hqp : q ≠ p := by
      rintro rfl
      exact hq hp.own_eq
    rw [plant, pages_setEntry, if_neg hi, pages_fill, if_neg hqp]
  · funext i
    rw [plant, pages_setEntry, if_neg fun heq ↦ hne heq.1, pages_fill, if_pos rfl]

theorem Owned.plant (h : Owned s own) (ht : own t = .dir v) (hp : Fresh s own p) :
    Owned (plant s t j p f) (Function.update own p (.leaves v j)) := by
  obtain ⟨hset, -⟩ := hp.pages_plant (j := j) (f := f) ht
  refine ⟨?_, h.mirrored_entrySet ht hset, ?_, ?_, ?_, h.free_update hp _, h.nodup⟩
  · intro k
    rw [hset.root_eq, Function.update_of_ne (h.ne_root (by simp [hp.own_eq]) k)]
    exact h.roots k
  · intro x hx
    rw [h.slotEntry_entrySet ht hset]
    exact (h.slots x hx).update hp.own_eq (by simp)
  · intro q x hq i hi
    have hne : q ≠ p := by
      rintro rfl
      rw [Function.update_self] at hq
      cases hq
    rw [Function.update_of_ne hne] at hq
    by_cases heq : q = t ∧ i = j
    · obtain ⟨rfl, rfl⟩ := heq
      obtain rfl : v = x := Owner.dir.inj (ht.symm.trans hq)
      rw [hset.entry]
      exact .inr (.inr ⟨p, rfl, hp.aligned, Function.update_self ..⟩)
    · rw [hset.other q (by simp [hq]) i heq]
      exact (h.dirs q x hq i hi).update hp.own_eq (by simp)
  · intro q x hq
    have hne : q ≠ p := by
      rintro rfl
      rw [Function.update_self] at hq
      cases hq
    rw [Function.update_of_ne hne] at hq
    rw [h.slotEntry_entrySet ht hset]
    exact h.hung q x hq

/-- The path of an address in the 2 MiB of the entry leads through the new page. -/
theorem Owned.path_plant (h : Owned s own) (ht : own t = .dir v) (hp : Fresh s own p)
    (halign : Aligned t) (hlink : s.slotEntry v = 3 ||| t)
    (ha : canon (slotOf a) = v ∧ idxL2 a = j) :
    Table (entry1 s a) ∧ entry2 s a = s.pages t j ∧ Table (entry1 (Mmu.plant s t j p f) a) ∧
      Table (entry2 (Mmu.plant s t j p f) a) ∧ entry3 (Mmu.plant s t j p f) a = f (idxL3 a) := by
  obtain ⟨hset, hpage⟩ := hp.pages_plant (j := j) (f := f) ht
  obtain ⟨h₁, h₂, h₁', h₂'⟩ := h.path_entrySet ht hset halign hlink ha
  rw [h₁, h₁', h₂']
  refine ⟨halign.table, h₂, halign.table, hp.aligned.table, ?_⟩
  rw [entry3, h₂', hp.aligned.link.1, hpage]

/-- No entry of the path of the address is a block any more. -/
theorem Kept.of_tables (hview : view s' a = view s a) (h₁ : Table (entry1 s' a))
    (h₂ : Table (entry2 s' a)) : Kept s s' a := by
  refine ⟨hview, ?_, ?_⟩
  · rintro e ⟨rfl, hblock⟩
    exact absurd hblock (not_block h₁)
  · rintro e ⟨-, rfl, hblock⟩
    exact absurd hblock (not_block h₂)

theorem Owned.kept_plant_empty (h : Owned s own) (ht : own t = .dir v) (hp : Fresh s own p)
    (halign : Aligned t) (hlink : s.slotEntry v = 3 ||| t) (hempty : Empty (s.pages t j)) :
    Kept s (Mmu.plant s t j p fun _ ↦ 0) a := by
  by_cases ha : canon (slotOf a) = v ∧ idxL2 a = j
  · obtain ⟨h₁, h₂, h₁', h₂', h₃'⟩ := h.path_plant (f := fun _ ↦ 0) ht hp halign hlink ha
    have hold : Empty (entry2 s a) := h₂ ▸ hempty
    have hzero : ¬Table (entry3 (Mmu.plant s t j p fun _ ↦ 0) a) := by
      rw [h₃']
      decide
    refine .of_tables ?_ h₁' h₂'
    rw [view_empty2 h₁ hold, view_no_page h₁' h₂' hzero]
  · exact h.kept_entrySet ht (hp.pages_plant ht).1 ha

theorem Owned.kept_plant_block (h : Owned s own) (ht : own t = .dir v) (hp : Fresh s own p)
    (halign : Aligned t) (hlink : s.slotEntry v = 3 ||| t) (hblock : Block (s.pages t j))
    (hclean : canon (slotOf a) = v ∧ idxL2 a = j → ∀ e, Block2 s a e → Clean e) :
    Kept s (Mmu.plant s t j p (splitPage (s.pages t j))) a := by
  by_cases ha : canon (slotOf a) = v ∧ idxL2 a = j
  · obtain ⟨h₁, h₂, h₁', h₂', h₃'⟩ :=
      h.path_plant (f := splitPage (s.pages t j)) ht hp halign hlink ha
    rw [← h₂] at hblock h₁' h₂' h₃' ⊢
    have hpiece : Table (entry3 (Mmu.plant s t j p (splitPage (entry2 s a))) a) := by
      rw [h₃']
      exact table_splitPage idxL3_lt
    obtain ⟨hphys, hattributes⟩ := seen_splitPage (hclean ha _ ⟨h₁, rfl, hblock⟩) a
    refine .of_tables ?_ h₁' h₂'
    rw [view_block2 h₁ hblock, view_page h₁' h₂' hpiece, h₃', hphys, hattributes]
  · exact h.kept_entrySet ht (hp.pages_plant ht).1 ha

/-- `pageTable`: what is seen stays, if the block that is split is clean. -/
theorem Owned.pageTable (h : Owned s own) (hv : canon (slotOf virt) = slotOf virt)
    (ht : own t = .dir (slotOf virt)) (halign : Aligned t) (hlink : entry1 s virt = 3 ||| t)
    (hrun : pageTable s t virt = some (p, s')) :
    ∃ own', Owned s' own' ∧ own' p = .leaves (slotOf virt) (idxL2 virt) ∧ Aligned p ∧
      entry1 s' virt = 3 ||| t ∧ entry2 s' virt = 3 ||| p ∧
      ∀ a, (canon (slotOf a) = slotOf virt ∧ idxL2 a = idxL2 virt →
        ∀ e, Block2 s a e → Clean e) → Kept s s' a := by
  have hlink' : s.slotEntry (slotOf virt) = 3 ||| t := by rwa [← entry1_eq]
  unfold Mmu.pageTable at hrun
  dsimp only at hrun
  split_ifs at hrun with hempty hblock
  · obtain ⟨⟨q, s₁⟩, hget, hrun⟩ := Option.bind_eq_some_iff.mp hrun
    obtain ⟨h₁, hfresh, rest, rfl⟩ := h.get4kPage hget
    cases hrun
    obtain ⟨-, -, hentry₁, hentry₂⟩ := h₁.path_entrySet ht
      (hfresh.pages_plant (j := idxL2 virt) (f := fun _ ↦ 0) ht).1 halign hlink' ⟨hv, rfl⟩
    exact ⟨_, h₁.plant (f := fun _ ↦ 0) ht hfresh, Function.update_self .., hfresh.aligned,
      hentry₁, hentry₂, fun a _ ↦
        (h₁.kept_plant_empty ht hfresh halign hlink' hempty).of_freePages⟩
  · obtain ⟨⟨q, s₁⟩, hget, hrun⟩ := Option.bind_eq_some_iff.mp hrun
    obtain ⟨h₁, hfresh, rest, rfl⟩ := h.get4kPage hget
    cases hrun
    obtain ⟨-, -, hentry₁, hentry₂⟩ := h₁.path_entrySet ht
      (hfresh.pages_plant (j := idxL2 virt) (f := splitPage (s.pages t (idxL2 virt))) ht).1
      halign hlink' ⟨hv, rfl⟩
    exact ⟨_, h₁.plant (f := splitPage (s.pages t (idxL2 virt))) ht hfresh,
      Function.update_self .., hfresh.aligned, hentry₁, hentry₂, fun a hclean ↦
        (h₁.kept_plant_block ht hfresh halign hlink' hblock hclean).of_freePages⟩
  · cases hrun
    have hlinked := h.dirs t (slotOf virt) ht (idxL2 virt) idxL2_lt
    have htable : Table (s.pages t (idxL2 virt)) := by
      rcases hlinked.kind with hkind | hkind | hkind
      · exact absurd hkind hempty
      · exact absurd hkind hblock
      · exact hkind
    obtain ⟨q, heq, hq, hown⟩ := hlinked.table htable
    have hpage : s.pages t (idxL2 virt) &&& 0x7ffffff000 = q := by rw [heq, hq.link.2]
    rw [hpage]
    refine ⟨own, h, hown, hq, hlink, ?_, fun a _ ↦ .refl s a⟩
    rw [entry2, hlink, halign.link.1, heq]

end Emu68.Mmu

import Emu68.Tlsf.Merging

/-!
Giving memory back. A busy block becomes free and joins its free neighbours, or only its end does; a
block that grows takes the front of the free block behind it.
-/

set_option autoImplicit false
set_option relaxedAutoImplicit false

namespace Emu68.Tlsf

variable {h : Heap} {areas : List Area} {b : Block} {g : Hole} {m : ℕ → ℕ}

/-- The header of a busy block becomes the header of a free one. -/
theorem Valid.markFree {lead tail : List Block} (hv : Valid h (g.fill (lead ++ b :: tail)))
    (hbusy : b.free = false) {p : Bool} (hb : Header h b.addr b.size false p) :
    ∃ h₁, setFreeBlock h b.addr = h₁ ∧
      Working g (lead ++ b :: tail) h.mem h₁ (listedBlocks lead ++ listedBlocks tail) ∧
      Header h₁ b.addr b.size true p ∧ ∀ z, z ≠ b.addr + 8 → h₁.mem z = h.mem z := by
  have hw := hv.working rfl
  have hclear : Clear (listedBlocks (lead ++ b :: tail)) (b.addr + 8) :=
    hv.laid.clear_header (fun q hq ↦ Hole.mem_fill.mpr (.inl hq)) mem_surrounding (by omega) (by omega)
  obtain ⟨hlow, hhigh⟩ := hv.laid.mid_within (List.mem_append_right lead List.mem_cons_self)
  simp only [Block.stop] at hhigh
  have hw₁ := hw.write (v := headerWord b.size true p) ⟨by omega, by omega⟩ hclear
  rw [listedBlocks_surrounding _ _ hbusy] at hw₁
  exact ⟨_, hb.setFreeBlock, hw₁, Header.written h b.addr hb.size_mod hb.size_lt,
    fun z hz ↦ Heap.write_mem_of_ne hz⟩

theorem tlsfFree_effect (hv : Valid h areas) (hb : Inner areas b) (hbusy : b.free = false) :
    ∃ h' areas', tlsfFree h (b.addr + 16) = .ok h' ∧ Effect h h' areas areas' [b] := by
  obtain ⟨g, lead, tail, rfl, hbefore, hbehind, hlead, htail⟩ := hv.laid.exists_surrounding hb
  have hgone := gone_surrounding (b := b) hlead htail
  have hends := hv.laid.ends lead hbehind htail
  have hchain := hv.laid.hole_chain
  have hmod := hv.laid.size_mod mem_surrounding
  have hlt := hv.laid.size_lt mem_surrounding
  have hentry {p : Bool} {h₁ h₂ h₃ : Heap} {x : ℕ} (hbp : Header h b.addr b.size false p)
      (hset : setFreeBlock h b.addr = h₁) (hprev : mergePrev h₁ b.addr = .ok (h₂, x))
      {h' : Heap} (hmerge : mergeNext h₂ x = .ok h₃) (hannounce : announceFree h₃ x = .ok h') :
      tlsfFree h (b.addr + 16) = .ok h' := by
    have hfree : freeBlock h b.addr = false := hbp.freeBlock
    have hhdr : memToBhdr (b.addr + 16) = b.addr := Nat.add_sub_cancel ..
    rw [tlsfFree, if_neg (Nat.succ_ne_zero _)]
    simp only [hhdr, hfree, hset, hprev, bind, Except.bind, hmerge, hannounce, Bool.false_eq_true,
      if_false]
  rcases hlead with rfl | ⟨q, rfl, hq⟩
  · have hfirst : Behind h.mem g.before b := (List.isChain_cons_cons.mp hchain).1
    have hb₀ : Header h b.addr b.size false false := by
      have hheader := hfirst.header hmod hlt
      rwa [hbusy, hbefore] at hheader
    obtain ⟨h₁, hset, w₁, hb₁, hkeep₁⟩ := hv.markFree hbusy hb₀
    have hends₁ : g.Ends h₁ tail (b.addr + 16 + b.size) :=
      hends.congr fun y hy _ _ ↦ hkeep₁ y (by simp only [Block.stop] at hy; omega)
    obtain ⟨h₂, h', s', hmerge, hannounce, heffect⟩ := w₁.freed hb₁ hfirst.addr hbefore hends₁ hgone
    exact ⟨h', _, hentry hb₀ hset (mergePrev_busy hb₁) hmerge hannounce, heffect⟩
  · obtain ⟨addr, size, free⟩ := q
    dsimp only at hq
    subst hq
    obtain ⟨hfirst, hchain⟩ := List.isChain_cons_cons.mp hchain
    have hsecond : Behind h.mem ⟨addr, size, true⟩ b := (List.isChain_cons_cons.mp hchain).1
    have hb₀ : Header h b.addr b.size false true := by
      have hheader := hsecond.header hmod hlt
      rwa [hbusy] at hheader
    have hqmem : (⟨addr, size, true⟩ : Block) ∈ allBlocks (g.fill ([⟨addr, size, true⟩] ++ b :: tail)) :=
      Hole.mem_fill.mpr (.inl List.mem_cons_self)
    have hq₀ : Header h addr size true false := by
      have hheader := hfirst.header (hv.laid.size_mod hqmem) (hv.laid.size_lt hqmem)
      rwa [hbefore] at hheader
    obtain ⟨h₁, hset, w₁, hb₁, hkeep₁⟩ := hv.markFree hbusy hb₀
    have hbaddr : b.addr = addr + 16 + size := hsecond.addr
    obtain ⟨-, hhigh⟩ := hv.laid.mid_within (List.mem_append_right _ (List.mem_cons_self (a := b) (l := tail)))
    have hshort := hv.laid.hole_short
    have hlow : addr = g.before.stop := hfirst.addr
    simp only [Block.stop] at hhigh hshort hlow
    have hends₁ : g.Ends h₁ tail (b.addr + 16 + b.size) :=
      hends.congr fun y hy _ _ ↦ hkeep₁ y (by simp only [Block.stop] at hy; omega)
    rw [listedBlocks_free, List.append_assoc] at w₁
    obtain ⟨h₂, hprev, w₂, hb₂, hkeep₂⟩ := w₁.mergePrev_free (hq₀.congr (hkeep₁ _ (by omega))) hb₁
      ((hkeep₁ _ (by omega)).trans (hsecond.prev rfl)) hbaddr hlow.ge hhigh (by omega)
      fun z _ hz ↦ hends₁.clear (by omega)
    have hends₂ : g.Ends h₂ tail (addr + 16 + (size + b.size + 16)) := by
      have hsum : addr + 16 + (size + b.size + 16) = b.addr + 16 + b.size := by omega
      rw [hsum]
      exact hends₁.congr fun y hy hy' hclear ↦
        hkeep₂ y ⟨by simp only [Block.stop]; omega, hy'⟩ (by omega) hclear
    obtain ⟨h₃, h', s', hmerge, hannounce, heffect⟩ := w₂.freed hb₂ hlow hbefore hends₂ hgone
    exact ⟨h', _, hentry hb₀ hset hprev hmerge hannounce, heffect⟩

/-! ### Reallocation in place -/

/-- A block that has got another size at the same place, with `n` bytes of its contents. -/
structure Resized (h h' : Heap) (areas areas' : List Area) (b : Block) (size n : ℕ) : Prop where
  effect : Effect h h' areas areas' [b]
  inner : Inner areas' ⟨b.addr, size, false⟩
  contents : ∀ z, b.addr + 16 ≤ z → z < b.addr + 16 + n → h'.mem z = h.mem z

/-- The hole is left with a busy block in front of what `rest` says. -/
theorem Working.resized {tail : List Block} (rest : List Block) {h' : Heap} {size n : ℕ}
    (w : Working g (b :: tail) h.mem h' (listedBlocks rest))
    (htail : tail = [] ∨ ∃ n, tail = [n] ∧ n.free = true) (hmod : size % 16 = 0)
    (hword : h'.mem (b.addr + 8) = headerWord size false g.before.free)
    (hprev : h'.mem b.addr = h.mem b.addr)
    (hchain : (⟨b.addr, size, false⟩ :: (rest ++ [g.behind])).IsChain (Behind h'.mem))
    (hrest : ∀ q ∈ rest, q.size % 16 = 0)
    (hcontents : ∀ z, b.addr + 16 ≤ z → z < b.addr + 16 + n → h'.mem z = h.mem z) :
    ∃ areas', Resized h h' (g.fill (b :: tail)) areas' b size n := by
  have hfirst : Behind h.mem g.before b := (List.isChain_cons_cons.mp w.laid.hole_chain).1
  have hlist : listedBlocks rest = listedBlocks (⟨b.addr, size, false⟩ :: rest) :=
    (listedBlocks_busy ..).symm
  rw [hlist] at w
  have heffect := w.effect [b] rfl
    (List.isChain_cons_cons.mpr ⟨⟨hfirst.addr, fun hfree ↦ Bool.noConfusion hfree.2, hword,
      fun hfree ↦ hprev.trans (hfirst.prev hfree)⟩, hchain⟩)
    (List.forall_mem_cons.mpr ⟨hmod, hrest⟩) (gone_surrounding (.inl rfl) htail)
  exact ⟨_, heffect, heffect.valid.laid.inner_mid List.mem_cons_self, hcontents⟩

theorem shrinkBlock_eq {h₂ h₃ h₄ h' : Heap} {a n size x : ℕ} (hsize : getSize h a = .ok size)
    (hx : x = a + 16 + n)
    (hset : setSizeAndFlags (h.write x a) x (sub64 (sub64 size n) 16) 1 = .ok h₂)
    (hshrunk : setSize h₂ a n = .ok h₃) (hmerge : mergeNext h₃ x = .ok h₄)
    (hannounce : announceFree h₄ x = .ok h') : shrinkBlock h a n = .ok h' := by
  have hnext : getNextBhdr a n = x := hx.symm
  rw [shrinkBlock, hsize, ok_bind]
  dsimp only
  rw [hnext, hset, ok_bind, hshrunk, ok_bind, hmerge, ok_bind, hannounce]

theorem shrinkBlock_resized {n : ℕ} (hv : Valid h areas) (hb : Inner areas b) (hbusy : b.free = false)
    (hmod : n % 16 = 0) (hle : n + 16 ≤ b.size) :
    ∃ h' areas', shrinkBlock h b.addr n = .ok h' ∧ Resized h h' areas areas' b n n := by
  obtain ⟨g, tail, rfl, hbehind, htail⟩ := hv.laid.exists_tail hb
  have hends : g.Ends h tail b.stop := hv.laid.ends [] hbehind htail
  have hfirst : Behind h.mem g.before b := (List.isChain_cons_cons.mp hv.laid.hole_chain).1
  have hsize := hv.laid.size_mod hb.mem
  have hlt := hv.laid.size_lt hb.mem
  have hb₀ : Header h b.addr b.size false g.before.free := by
    have hheader := hfirst.header hsize hlt
    rwa [hbusy] at hheader
  obtain ⟨hlow, hhigh⟩ := hv.laid.mid_within (List.mem_cons_self (a := b) (l := tail))
  have hshort := hv.laid.hole_short
  have haddr := hv.laid.addr_mod hb.mem
  simp only [Block.stop] at hhigh hshort hlow hends
  have hw := hv.working rfl
  have hlist : listedBlocks (b :: tail) = listedBlocks tail ++ [] := by
    rw [List.append_nil]
    exact listedBlocks_surrounding [] _ hbusy
  rw [hlist] at hw
  have hin {z : ℕ} (hz : b.addr ≤ z) (hz' : z < b.addr + 16 + b.size) : g.Within z :=
    ⟨by simp only [Block.stop]; omega, by omega⟩
  have hclear {z : ℕ} (hz : z < b.addr + 16 + b.size) : Clear (listedBlocks tail ++ []) z :=
    (hends.clear (by omega)).append clear_nil
  set x := b.addr + 16 + n with hx
  have hw₁ := hw.write (z := x) (v := b.addr) (hin (by omega) (by omega)) (hclear (by omega))
  set h₁ := h.write x b.addr with hh₁
  have hw₂ := hw₁.write (z := x + 8) (v := headerWord (b.size - n - 16) true false)
    (hin (by omega) (by omega)) (hclear (by omega))
  set h₂ := h₁.write (x + 8) (headerWord (b.size - n - 16) true false) with hh₂
  have hb₂ : Header h₂ b.addr b.size false g.before.free := (hb₀.write (by omega)).write (by omega)
  have hw₃ := hw₂.write (z := b.addr + 8) (v := headerWord n false g.before.free)
    (hin (by omega) (by omega)) (hclear (by omega))
  set h₃ := h₂.write (b.addr + 8) (headerWord n false g.before.free) with hh₃
  have hx₃ : Header h₃ x (b.size - n - 16) true false :=
    (Header.written h₁ x (by omega) (by omega)).write (by omega)
  have hold {z : ℕ} (hz : z ≠ x) (hz₁ : z ≠ x + 8) (hz₂ : z ≠ b.addr + 8) : h₃.mem z = h.mem z := by
    rw [hh₃, Heap.write_mem_of_ne hz₂, hh₂, Heap.write_mem_of_ne hz₁, hh₁, Heap.write_mem_of_ne hz]
  have hends₃ : g.Ends h₃ tail (x + 16 + (b.size - n - 16)) := by
    have hstop : x + 16 + (b.size - n - 16) = b.addr + 16 + b.size := by omega
    rw [hstop]
    exact hends.congr fun y hy _ _ ↦ hold (by omega) (by omega) (by omega)
  obtain ⟨h₄, h', s', hmerge, hannounce, w', hstop, hmod', hword, hlast, hkeep⟩ :=
    hw₃.release hx₃ (by omega) (by simp only [Block.stop]; omega) hends₃ (by omega) fun _ _ ↦ clear_nil
  have hkept {z : ℕ} (hz : b.addr ≤ z) (hz' : z < x) : h'.mem z = h₃.mem z :=
    hkeep z (hin hz (by omega)) (by omega) (by omega) clear_nil
  rw [show entry x s' ++ [] = listedBlocks [⟨x, s', true⟩] from (listedBlocks_free x s' []).symm] at w'
  have hresult : shrinkBlock h b.addr n = .ok h' := by
    have hrest : sub64 (sub64 b.size n) 16 = b.size - n - 16 := by
      rw [sub64_eq (x := b.size) (y := n) (by omega) (by omega),
        sub64_eq (x := b.size - n) (y := 16) (by omega) (by omega)]
    refine shrinkBlock_eq hb₀.getSize hx ?_ (hb₂.setSize hmod (by omega)) hmerge hannounce
    rw [hrest]
    exact setSizeAndFlags_eq h₁ x (by omega) (by omega)
  obtain ⟨areas', hresized⟩ : ∃ areas', Resized h h' (g.fill (b :: tail)) areas' b n n := by
    refine w'.resized _ htail hmod ?_ ?_ ?_ ?_ ?_
    · rw [hkept (by omega) (by omega), hh₃, Heap.write_mem_self]
    · rw [hkept le_rfl (by omega), hold (by omega) (by omega) (by omega)]
    · refine List.isChain_cons_cons.mpr ⟨⟨rfl, fun hfree ↦ Bool.noConfusion hfree.1, hword,
        fun hfree ↦ Bool.noConfusion hfree⟩, List.isChain_pair.mpr hlast⟩
    · intro q hq
      rw [List.mem_singleton.mp hq]
      exact hmod'
    · intro z hz hz'
      rw [hkept (by omega) (by omega), hold (by omega) (by omega) (by omega)]
  exact ⟨h', areas', hresult, hresized⟩

theorem growBlock_split {h₁ h₂ h₃ h' : Heap} {a n size nextSize x : ℕ} (hsize : getSize h a = .ok size)
    (hnextSize : getSize h (a + 16 + size) = .ok nextSize)
    (hremove : removeHeader h (a + 16 + size) (mappingInsert nextSize).1 (mappingInsert nextSize).2 =
      .ok h₁)
    (hroom : 16 ≤ size + nextSize + 16 - n) (hshrunk : setSize h₁ a n = .ok h₂) (hx : x = a + 16 + n)
    (hset : setSizeAndFlags (h₂.write x a) x (size + nextSize + 16 - n - 16) 1 = .ok h₃)
    (hannounce : announceFree h₃ x = .ok h') : growBlock h a n = .ok h' := by
  have hbehind : getNextBhdr a size = a + 16 + size := rfl
  have hnext : getNextBhdr a n = x := hx.symm
  rw [growBlock, hsize, ok_bind]
  dsimp only
  rw [hbehind, hnextSize, ok_bind, hremove, ok_bind, if_pos hroom, hshrunk, ok_bind, hnext, hset, ok_bind, hannounce]

theorem growBlock_whole {h₁ h₂ : Heap} {a n size nextSize y : ℕ} (hsize : getSize h a = .ok size)
    (hnextSize : getSize h (a + 16 + size) = .ok nextSize)
    (hremove : removeHeader h (a + 16 + size) (mappingInsert nextSize).1 (mappingInsert nextSize).2 =
      .ok h₁)
    (hroom : ¬ 16 ≤ size + nextSize + 16 - n)
    (hgrown : setSize h₁ a (size + nextSize + 16) = .ok h₂) (hy : y = a + 16 + (size + nextSize + 16)) :
    growBlock h a n = .ok (setBusyPrevBlock (h₂.write y a) y) := by
  have hbehind : getNextBhdr a size = a + 16 + size := rfl
  have hnext : getNextBhdr a (size + nextSize + 16) = y := hy.symm
  rw [growBlock, hsize, ok_bind]
  dsimp only
  rw [hbehind, hnextSize, ok_bind, hremove, ok_bind, if_neg hroom, hgrown, ok_bind, hnext]
  rfl

theorem growBlock_resized {q : Block} {n : ℕ} (hv : Valid h (g.fill [b, q])) (hbusy : b.free = false)
    (hq : q.free = true) (hbehind : g.behind.free = false) (hmod : n % 16 = 0) (hgt : b.size < n)
    (hle : n ≤ b.size + q.size + 16) :
    ∃ h' areas' size, growBlock h b.addr n = .ok h' ∧ n ≤ size ∧
      Resized h h' (g.fill [b, q]) areas' b size b.size := by
  obtain ⟨addr, nextSize, free⟩ := q
  dsimp only at hq hle
  subst hq
  obtain ⟨hfirst, hchain⟩ := List.isChain_cons_cons.mp hv.laid.hole_chain
  obtain ⟨hsecond, hchain⟩ := List.isChain_cons_cons.mp hchain
  have hlast : Behind h.mem ⟨addr, nextSize, true⟩ g.behind := (List.isChain_cons_cons.mp hchain).1
  have hbmem : b ∈ allBlocks (g.fill [b, ⟨addr, nextSize, true⟩]) :=
    Hole.mem_fill.mpr (.inl List.mem_cons_self)
  have hqmem : (⟨addr, nextSize, true⟩ : Block) ∈ allBlocks (g.fill [b, ⟨addr, nextSize, true⟩]) :=
    Hole.mem_fill.mpr (.inl (List.mem_cons_of_mem _ List.mem_cons_self))
  have hrmem : g.behind ∈ allBlocks (g.fill [b, ⟨addr, nextSize, true⟩]) :=
    Hole.others_subset Hole.behind_mem
  have hb₀ : Header h b.addr b.size false g.before.free := by
    have hheader := hfirst.header (hv.laid.size_mod hbmem) (hv.laid.size_lt hbmem)
    rwa [hbusy] at hheader
  have hq₀ : Header h addr nextSize true false := by
    have hheader := hsecond.header (hv.laid.size_mod hqmem) (hv.laid.size_lt hqmem)
    rwa [hbusy] at hheader
  have hr₀ : Header h g.behind.addr g.behind.size false true := by
    have hheader := hlast.header (hv.laid.size_mod hrmem) (hv.laid.size_lt hrmem)
    rwa [hbehind] at hheader
  obtain ⟨hlow, -⟩ := hv.laid.mid_within (List.mem_cons_self (a := b))
  have hshort := hv.laid.hole_short
  have hbmod := hv.laid.addr_mod hbmem
  have hbsize := hb₀.size_mod
  have hqsize := hq₀.size_mod
  have hqaddr : addr = b.addr + 16 + b.size := hsecond.addr
  have hraddr : g.behind.addr = addr + 16 + nextSize := hlast.addr
  simp only [Block.stop] at hshort hlow
  have hw := hv.working rfl
  have hlist : listedBlocks [b, ⟨addr, nextSize, true⟩] = entry addr nextSize ++ [] :=
    (listedBlocks_surrounding [] _ hbusy).trans (listedBlocks_free ..)
  rw [hlist] at hw
  have hin {z : ℕ} (hz : b.addr ≤ z) (hz' : z < g.behind.addr + 16) : g.Within z :=
    ⟨by simp only [Block.stop]; omega, hz'⟩
  obtain ⟨h₁, hremove, w₁, hkeep₁⟩ := hw.take hq₀ (slot_of_header hq₀)
  have hold₁ {z : ℕ} (hz : b.addr ≤ z) (hz' : z < g.behind.addr + 16) : h₁.mem z = h.mem z :=
    hkeep₁ z (hin hz hz') clear_nil
  have hb₁ := hb₀.congr (hold₁ (z := b.addr + 8) (by omega) (by omega))
  have hr₁ := hr₀.congr (hold₁ (z := g.behind.addr + 8) (by omega) (by omega))
  rw [hqaddr] at hremove hq₀
  by_cases hroom : 16 ≤ b.size + nextSize + 16 - n
  · have w₂ := w₁.write (z := b.addr + 8) (v := headerWord n false g.before.free)
      (hin (by omega) (by omega)) clear_nil
    have hshrunk := hb₁.setSize hmod (by omega)
    set h₂ := h₁.write (b.addr + 8) (headerWord n false g.before.free) with hh₂
    set x := b.addr + 16 + n with hx
    set rest := b.size + nextSize + 16 - n - 16 with hrest
    have w₄ := (w₂.write (z := x) (v := b.addr) (hin (by omega) (by omega)) clear_nil).write
      (z := x + 8) (v := headerWord rest true false) (hin (by omega) (by omega)) clear_nil
    have hset := setSizeAndFlags_eq (h₂.write x b.addr) x (s := rest) (by omega) (by omega)
    set h₄ := (h₂.write x b.addr).write (x + 8) (headerWord rest true false) with hh₄
    have hold₄ {z : ℕ} (hz : z ≠ x) (hz₁ : z ≠ x + 8) : h₄.mem z = h₂.mem z := by
      rw [hh₄, Heap.write_mem_of_ne hz₁, Heap.write_mem_of_ne hz]
    have hx₄ : Header h₄ x rest true false := Header.written _ x (by omega) (by omega)
    have hr₄ : Header h₄ g.behind.addr g.behind.size false true :=
      (hr₁.write (by omega)).congr (hold₄ (by omega) (by omega))
    obtain ⟨h', hannounce, w', hend, hkeep⟩ := w₄.announce hx₄ (by omega)
      (by simp only [Block.stop]; omega) (by omega) hbehind hr₄ fun _ _ ↦ clear_nil
    have hkept {z : ℕ} (hz : b.addr ≤ z) (hz' : z < x) : h'.mem z = h₂.mem z :=
      (hkeep z (hin hz (by omega)) (by omega) clear_nil).trans (hold₄ (by omega) (by omega))
    have hxword : h'.mem (x + 8) = headerWord rest true false :=
      (hkeep _ (hin (by omega) (by omega)) (by omega) clear_nil).trans hx₄.word
    rw [show entry x rest ++ [] = listedBlocks [⟨x, rest, true⟩] from (listedBlocks_free x rest []).symm]
      at w'
    obtain ⟨areas', hresized⟩ : ∃ areas', Resized h h' (g.fill [b, ⟨addr, nextSize, true⟩]) areas' b n
        b.size := by
      refine w'.resized _ (.inr ⟨_, rfl, rfl⟩) hmod ?_ ?_ ?_ ?_ ?_
      · rw [hkept (by omega) (by omega), hh₂, Heap.write_mem_self]
      · rw [hkept le_rfl (by omega), hh₂, Heap.write_mem_of_ne (by omega), hold₁ le_rfl (by omega)]
      · exact List.isChain_cons_cons.mpr ⟨⟨rfl, fun hfree ↦ Bool.noConfusion hfree.1, hxword,
          fun hfree ↦ Bool.noConfusion hfree⟩, List.isChain_pair.mpr hend⟩
      · intro q hq
        rw [List.mem_singleton.mp hq]
        exact hx₄.size_mod
      · intro z hz hz'
        rw [hkept (by omega) (by omega), hh₂, Heap.write_mem_of_ne (by omega),
          hold₁ (by omega) (by omega)]
    exact ⟨h', areas', n, growBlock_split hb₀.getSize hq₀.getSize hremove hroom hshrunk hx hset hannounce,
      le_rfl, hresized⟩
  · set total := b.size + nextSize + 16 with htotal
    have hgrown := hb₁.setSize (t := total) (by omega) (by omega)
    have w₂ := w₁.write (z := b.addr + 8) (v := headerWord total false g.before.free)
      (hin (by omega) (by omega)) clear_nil
    set h₂ := h₁.write (b.addr + 8) (headerWord total false g.before.free) with hh₂
    set y := g.behind.addr with hy
    have w₄ := (w₂.write (z := y) (v := b.addr) (hin (by omega) (by omega)) clear_nil).write
      (z := y + 8) (v := headerWord g.behind.size false false) (hin (by omega) (by omega)) clear_nil
    have hset := ((hr₁.write (a := b.addr + 8) (v := headerWord total false g.before.free)
      (by omega)).write (a := y) (v := b.addr) (by omega)).setBusyPrevBlock
    set h₄ := (h₂.write y b.addr).write (y + 8) (headerWord g.behind.size false false) with hh₄
    have hold₄ {z : ℕ} (hz : z < y) : h₄.mem z = h₂.mem z := by
      rw [hh₄, Heap.write_mem_of_ne (by omega), Heap.write_mem_of_ne (by omega)]
    have hresult : growBlock h b.addr n = .ok h₄ := by
      rw [← hset]
      exact growBlock_whole hb₀.getSize hq₀.getSize hremove hroom hgrown (by omega)
    obtain ⟨areas', hresized⟩ : ∃ areas', Resized h h₄ (g.fill [b, ⟨addr, nextSize, true⟩]) areas' b
        total b.size := by
      refine Working.resized [] w₄ (.inr ⟨_, rfl, rfl⟩) (by omega) ?_ ?_ ?_ ?_ ?_
      · rw [hold₄ (by omega), hh₂, Heap.write_mem_self]
      · rw [hold₄ (by omega), hh₂, Heap.write_mem_of_ne (by omega), hold₁ le_rfl (by omega)]
      · refine List.isChain_pair.mpr ⟨?_, fun hfree ↦ Bool.noConfusion hfree.1, ?_,
          fun hfree ↦ Bool.noConfusion hfree⟩
        · show y = b.addr + 16 + total
          omega
        · rw [hbehind, ← hy, hh₄, Heap.write_mem_self]
          rfl
      · exact fun q hq ↦ absurd hq List.not_mem_nil
      · intro z hz hz'
        rw [hold₄ (by omega), hh₂, Heap.write_mem_of_ne (by omega), hold₁ (by omega) (by omega)]
    exact ⟨h₄, areas', total, hresult, hle, hresized⟩

end Emu68.Tlsf
